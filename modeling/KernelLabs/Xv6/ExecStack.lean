import KernelLabs.Xv6.ExecImage

/-!
The arguments on the stack of a new program. The stack pointer is an unsigned number: a long
argument takes it below 0, to an address that may have no page table.
-/
namespace Xv6Exec
open Xv6Vm Custody Wp PageBytes Bytes

variable {img : Image} {all : Nat → Prop} {dirs : List Nat} {held : Multiset Nat} {s t u : Mem} {dir sz sp va : Nat} {buf : List Byte}

/-- The addresses above user memory for which `setupkvm` makes no page table. -/
def tableless (va : Nat) : Bool := 0x8E000000 ≤ va && va < 0xFE000000

section Places
variable {E : Panic → Prop}

theorem Ready.still (ready : Ready img all dirs held dir sz s) (still : Still img all dirs held dir s t) :
    Ready img all dirs held dir sz t := by
  have user := ready.user
  have low : sz / PGSIZE - 2 < 2 ^ 20 := by
    unfold KERNBASE at user
    unfold PGSIZE
    omega
  refine ⟨still.kept, ready.here, fun m small => ?_, ready.kernel.lower (Lower.of_same still.entries still.directory), user,
    ready.aligned, ready.room, ?_, fun m small other mapped => ?_⟩
  · rw [still.entries m (Nat.lt_trans small (by decide))]
    exact ready.exactly m small
  · rw [still.entries _ low]
    exact ready.guard
  · rw [still.entries m (Nat.lt_trans small (by decide))] at mapped ⊢
    exact ready.usable m small other mapped

/-- The pages of the new program. -/
theorem Ready.mapped (ready : Ready img all dirs held dir sz s) {a : Nat} (below : a < sz) :
    a / PGSIZE < userPages ∧ present (pte s.words dir (a / PGSIZE)) = true := by
  have user := ready.user
  have small : a / PGSIZE < userPages := by
    unfold KERNBASE at user
    unfold PGSIZE userPages
    omega
  refine ⟨small, (ready.exactly _ small).mpr ?_⟩
  unfold pgroundup PGSIZE
  omega

/-- Bytes for the stack page. -/
theorem Ready.put (ready : Ready img all dirs held dir sz s) (some : buf ≠ []) (low : sz - PGSIZE ≤ va) (fits : va + buf.length ≤ sz) :
    wp E (copyout dir va buf) s fun ok t => ok = true ∧ Still img all dirs held dir s t ∧ Written dir s t ∧
      ∀ a < sz, userByte t.words dir a = if va ≤ a ∧ a < va + buf.length then buf.getD (a - va) 0 else userByte s.words dir a := by
  have user := ready.user
  have aligned := ready.aligned
  have room := ready.room
  have long := List.length_pos_of_ne_nil some
  obtain ⟨small,mapped⟩ := ready.mapped (show va < sz by omega)
  have found := xlate_of mapped (ready.usable _ small (by unfold PGSIZE at *; omega) mapped)
  have inside : va % PGSIZE + buf.length ≤ PGSIZE := by
    unfold PGSIZE at *
    omega
  refine wp_mono (copyout_page (by unfold KERNBASE at user; omega) some inside found) fun ok t ⟨yes,same⟩ => ?_
  subst same
  have written := written_put (o := va % PGSIZE) small found buf
  refine ⟨yes, written.still ready.kept ready.here, written, fun a below => ?_⟩
  obtain ⟨userA,there⟩ := ready.mapped below
  have place : va / PGSIZE * PGSIZE + va % PGSIZE = va := by
    unfold PGSIZE
    omega
  rw [userByte_put ready.kept ready.here small found inside userA there, place]

/-- Bytes that begin below the stack page. -/
theorem Ready.stop (ready : Ready img all dirs held dir sz s) (some : buf ≠ []) (below : va < sz - PGSIZE) (reaches : sz - 2 * PGSIZE < va + buf.length) :
    wp E (copyout dir va buf) s fun ok t => ok = false ∧ Still img all dirs held dir s t ∧ Written dir s t := by
  have user := ready.user
  have aligned := ready.aligned
  have room := ready.room
  have small : sz / PGSIZE - 2 < userPages := by
    unfold KERNBASE at user
    unfold PGSIZE userPages
    omega
  refine copyLoop_stops (g := sz / PGSIZE - 2) _ ready.kept ready.here (fun m less => ?_) small ?_ some (Nat.le_refl _) ?_ ?_
  · have mapped := (ready.mapped (a := m * PGSIZE) (by unfold PGSIZE at *; omega)).2
    rw [Nat.mul_div_cancel m (by decide)] at mapped
    exact pte_table mapped
  · unfold xlate
    rw [ready.guard, Bool.and_false]
    rfl
  · unfold PGSIZE at *
    omega
  · unfold PGSIZE at *
    omega

/-- Bytes for an address above user memory: nothing is written, but a missing page table is not noticed. -/
theorem Ready.high (ready : Ready img all dirs held dir sz s) (some : buf ≠ []) (high : KERNBASE ≤ va) (low : va < 2 ^ 32) :
    wp (fun e => e = .nullPte ∧ tableless va = true) (copyout dir va buf) s fun ok t => ok = false ∧ t = s ∧ tableless va = false := by
  have table : present (s.words dir (va / PGSIZE / 1024)) = !tableless va := by
    rw [ready.kernel.tables _ (by unfold NPDENTRIES PGSIZE; omega) (by unfold KERNBASE at high; unfold userTables PGSIZE; omega)]
    unfold kernelTable tableless PGSIZE
    rw [Bool.eq_iff_iff]
    simp only [Bool.or_eq_true, Bool.not_eq_true', decide_eq_true_iff, Bool.and_eq_false_iff, decide_eq_false_iff_not]
    omega
  have hidden := ready.kernel.hidden (va / PGSIZE) (by unfold PGSIZE; omega) (by unfold KERNBASE at high; unfold userPages PGSIZE; omega)
  have none : xlate s.words dir (va / PGSIZE) = none := by
    unfold xlate
    rw [hidden, Bool.and_false]
    rfl
  unfold copyout
  obtain ⟨b,rest,split⟩ := List.exists_cons_of_ne_nil some
  rw [split, List.length_cons, ← split]
  refine copyLoop_step low some (fun unset => ⟨rfl, ?_⟩) (fun set _ => ⟨rfl, rfl, ?_⟩) fun page found => ?_
  · rw [table] at unset
    simpa using unset
  · rw [table] at set
    simpa using set
  · cases none.symm.trans found

end Places

section Arguments

/-- The stack pointer after an argument. -/
def pushed (sp : Nat) (arg : List Byte) : Nat := (sp + 2 ^ 32 - (arg.length + 1) % 2 ^ 32) % 2 ^ 32 / 4 * 4

/-- The arguments fit into the stack page up to one that takes the stack pointer below 0, to where there is no page table. -/
def wild (sz : Nat) : List (List Byte) → Nat → Bool
  | [], _ => false
  | arg :: rest, sp =>
    if sz - PGSIZE ≤ pushed sp arg ∧ pushed sp arg < sz then wild sz rest (pushed sp arg) else tableless (pushed sp arg)

/-- The arguments are in the stack page from `sp` on, each at its pointer. -/
def Stored (w : Nat → Nat → Nat) (dir sz sp : Nat) (args : List (List Byte)) (ptrs : List Nat) : Prop :=
  List.Forall₂ (fun arg p => sp ≤ p ∧ p + arg.length + 1 ≤ sz ∧
    ∀ j ≤ arg.length, userByte w dir (p + j) = (arg ++ [0]).getD j 0) args ptrs

/-- Bytes below `sp` may change. -/
theorem Stored.keep {args : List (List Byte)} {ptrs : List Nat} {w : Nat → Nat → Nat} (stored : Stored s.words dir sz sp args ptrs)
    {low : Nat} (less : low ≤ sp) (same : ∀ a < sz, sp ≤ a → userByte w dir a = userByte s.words dir a) : Stored w dir sz low args ptrs := by
  refine List.Forall₂.imp (fun arg p ⟨above,fits,bytes⟩ => ⟨Nat.le_trans less above, fits, fun j le => ?_⟩) stored
  rw [same (p + j) (by omega) (by omega)]
  exact bytes j le

/-- An argument either takes the stack pointer down in the user's half, or below 0 into the kernel's. -/
theorem pushed_range {arg : List Byte} (short : arg.length < KERNBASE) (user : sp < KERNBASE) :
    (pushed sp arg + arg.length + 1 ≤ sp ∧ sp ≤ pushed sp arg + arg.length + 4 ∨ KERNBASE ≤ pushed sp arg ∧ pushed sp arg < 2 ^ 32) ∧
      pushed sp arg % 4 = 0 := by
  unfold KERNBASE at short user
  unfold pushed KERNBASE
  omega

theorem pushArgs_spec (rest : List (List Byte)) {done : List (List Byte)} {ptrs : List Nat} (ready : Ready img all dirs held dir sz s)
    (inside : sz - PGSIZE ≤ sp ∧ sp ≤ sz ∧ sp % 4 = 0) (short : ∀ arg ∈ rest, arg.length < KERNBASE)
    (few : done.length + rest.length < MAXARG) (stored : Stored s.words dir sz sp done ptrs) :
    wp (fun e => e = .nullPte ∧ wild sz rest sp = true) (pushArgs dir rest done.length sp ptrs) s fun result t =>
      wild sz rest sp = false ∧ Still img all dirs held dir s t ∧ Written dir s t ∧ ∀ sp' ptrs', result = some (sp', ptrs') →
        (sz - PGSIZE ≤ sp' ∧ sp' ≤ sz ∧ sp' % 4 = 0) ∧ Stored t.words dir sz sp' (done ++ rest) ptrs' := by
  induction rest generalizing done ptrs sp s with
  | nil =>
    refine ⟨rfl, Still.refl ready.kept, Written.refl, fun sp' ptrs' same => ?_⟩
    cases same
    rw [List.append_nil]
    exact ⟨inside,stored⟩
  | cons arg rest ih =>
    have user := ready.user
    have room := ready.room
    rw [List.length_cons] at few
    obtain ⟨range,aligned⟩ := @pushed_range sp arg (short arg List.mem_cons_self) (by omega)
    have some : arg ++ [0] ≠ [] := List.append_ne_nil_of_right_ne_nil arg (List.cons_ne_nil _ _)
    have long : (arg ++ [0]).length = arg.length + 1 := List.length_append
    rw [pushArgs, wp_ite, if_neg (by omega), wild]
    dsimp only
    rw [wp_bind]
    change wp _ (copyout dir (pushed sp arg) (arg ++ [0])) s _
    rcases range with ⟨fits,near⟩ | ⟨high,low⟩
    · by_cases page : sz - PGSIZE ≤ pushed sp arg
      · rw [if_pos ⟨page, by omega⟩]
        refine wp_mono (ready.put some page (by omega)) fun ok t put => ?_
        obtain ⟨yes,still,written,bytes⟩ := put
        rw [yes, wp_ite, if_pos rfl]
        have stored' : Stored t.words dir sz (pushed sp arg) (done ++ [arg]) (ptrs ++ [pushed sp arg]) := by
          refine List.rel_append (stored.keep (by omega) fun a below above => ?_) (.cons ⟨Nat.le_refl _, by omega, fun j le => ?_⟩ .nil)
          · rw [bytes a below, if_neg (by omega)]
          · rw [bytes _ (by omega), if_pos (by omega), Nat.add_sub_cancel_left]
        have more : (done ++ [arg]).length = done.length + 1 := List.length_append
        rw [← more]
        refine wp_mono (ih (ready.still still) ⟨page, by omega, aligned⟩ (fun a mem => short a (List.mem_cons_of_mem arg mem)) (by omega) stored')
          fun result u rested => ?_
        obtain ⟨tame,later,second,after⟩ := rested
        refine ⟨tame, still.trans later, written.trans second still.entries, fun sp' ptrs' same => ?_⟩
        obtain ⟨final,all⟩ := after sp' ptrs' same
        rw [List.append_assoc] at all
        exact ⟨final,all⟩
      · have tame : tableless (pushed sp arg) = false := by
          unfold tableless
          unfold KERNBASE at user
          rw [Bool.and_eq_false_iff, decide_eq_false_iff_not]
          omega
        rw [if_neg fun both => page both.1, tame]
        refine wp_mono (ready.stop some (Nat.not_le.mp page) ?_) fun ok t stopped => ?_
        · unfold PGSIZE at *
          omega
        · obtain ⟨no,still,written⟩ := stopped
          rw [no, wp_ite, if_neg (by decide)]
          exact ⟨rfl, still, written, fun _ _ none => by cases none⟩
    · rw [if_neg (by omega)]
      refine wp_mono (ready.high some high low) fun ok t stopped => ?_
      obtain ⟨no,same,tame⟩ := stopped
      rw [no, same, wp_ite, if_neg (by decide)]
      exact ⟨tame, Still.refl ready.kept, Written.refl, fun _ _ none => by cases none⟩

end Arguments

section Words

def userWord (w : Nat → Nat → Nat) (dir a : Nat) : Nat := field (fun i => userByte w dir (a + i)) 0 4

theorem wordBytes_length (ws : List Nat) : (ws.flatMap wordBytes).length = 4 * ws.length := by
  induction ws with
  | nil => rfl
  | cons w ws ih =>
    rw [List.flatMap_cons, List.length_append, ih, List.length_cons, wordBytes, List.length_map, List.length_range]
    omega

theorem wordBytes_getD {ws : List Nat} {k i : Nat} (inside : k < ws.length) (low : i < 4) :
    (ws.flatMap wordBytes).getD (4 * k + i) 0 = byteOf (ws.getD k 0) i := by
  induction ws generalizing k with
  | nil => cases inside
  | cons w ws ih =>
    have size : (wordBytes w).length = 4 := by rw [wordBytes, List.length_map, List.length_range]
    rw [List.flatMap_cons, List.getD_eq_getElem?_getD]
    cases k with
    | zero =>
      rw [List.getElem?_append_left (by omega)]
      unfold wordBytes
      rw [List.getElem?_map, List.getElem?_range (by omega), Nat.mul_zero, Nat.zero_add]
      rfl
    | succ k =>
      rw [List.getElem?_append_right (by omega), size, show 4 * (k + 1) + i - 4 = 4 * k + i by omega, ← List.getD_eq_getElem?_getD]
      exact ih (Nat.lt_of_succ_lt_succ inside)

/-- Words that were copied to an address are read there. -/
theorem userWord_copied {ws : List Nat} {w : Nat → Nat → Nat} {k : Nat} (inside : k < ws.length)
    (bytes : ∀ a, va ≤ a → a < va + 4 * ws.length → userByte w dir a = (ws.flatMap wordBytes).getD (a - va) 0) (small : ws.getD k 0 < 2 ^ 32) :
    userWord w dir (va + 4 * k) = ws.getD k 0 := by
  unfold userWord
  have same : field (fun i => userByte w dir (va + 4 * k + i)) 0 4 = field (byteOf (ws.getD k 0)) 0 4 := by
    refine field_congr 4 fun i low => ?_
    rw [Nat.zero_add, bytes _ (by omega) (by omega), ← wordBytes_getD inside low]
    congr 1
    omega
  rw [same, field_byteOf]
  exact Nat.mod_eq_of_lt small

/-- What the new program finds on its stack. -/
structure Layout (w : Nat → Nat → Nat) (dir sz esp : Nat) (argv : List (List Byte)) : Prop where
  inside : sz - PGSIZE ≤ esp ∧ esp + 12 ≤ sz
  argc : userWord w dir (esp + 4) = argv.length
  array : sz - PGSIZE ≤ userWord w dir (esp + 8) ∧ userWord w dir (esp + 8) + 4 * (argv.length + 1) ≤ sz
  strings : ∀ i arg, argv[i]? = some arg → ∃ p, userWord w dir (userWord w dir (esp + 8) + 4 * i) = p ∧ sz - PGSIZE ≤ p ∧
    p + arg.length + 1 ≤ sz ∧ ∀ j ≤ arg.length, userByte w dir (p + j) = (arg ++ [0]).getD j 0
  last : userWord w dir (userWord w dir (esp + 8) + 4 * argv.length) = 0

/-- The words above `esp`: a return address, `argc`, the pointer to the array, and the array. -/
theorem layout_copied {w : Nat → Nat → Nat} {esp : Nat} {argv : List (List Byte)} {ptrs ws : List Nat} (user : sz < KERNBASE)
    (inside : sz - PGSIZE ≤ esp ∧ esp + 4 * (ptrs.length + 4) = sp ∧ sp ≤ sz) (stored : Stored w dir sz sp argv ptrs)
    (list : [0xffffffff, ptrs.length, esp + 12] ++ ptrs ++ [0] = ws)
    (bytes : ∀ a, esp ≤ a → a < esp + 4 * ws.length → userByte w dir a = (ws.flatMap wordBytes).getD (a - esp) 0) :
    Layout w dir sz esp argv := by
  obtain ⟨low,last,high⟩ := inside
  have argc := List.Forall₂.length_eq stored
  have count : ws.length = ptrs.length + 4 := by
    rw [← list]
    simp only [List.length_append, List.length_cons, List.length_nil]
    omega
  have args : ∀ (i : Nat) arg, argv[i]? = some arg → ∃ p, ptrs[i]? = some p ∧ sp ≤ p ∧ p + arg.length + 1 ≤ sz ∧
      ∀ j ≤ arg.length, userByte w dir (p + j) = (arg ++ [0]).getD j 0 := by
    intro i arg here
    obtain ⟨lowI,rfl⟩ := List.getElem?_eq_some_iff.mp here
    have lowP : i < ptrs.length := by rwa [← argc]
    have pair := List.Forall₂.get stored lowI lowP
    rw [List.get_eq_getElem, List.get_eq_getElem] at pair
    exact ⟨ptrs[i], List.getElem?_eq_getElem lowP, pair⟩
  have words : ∀ (k : Nat) v, ws[k]? = some v → v < 2 ^ 32 → userWord w dir (esp + 4 * k) = v := by
    intro k v here small
    have lowK := (List.getElem?_eq_some_iff.mp here).1
    have entry : ws.getD k 0 = v := by rw [List.getD_eq_getElem?_getD, here, Option.getD_some]
    rw [userWord_copied lowK bytes (by rw [entry]; exact small), entry]
  have pointer : userWord w dir (esp + 8) = esp + 12 := words 2 _ (by rw [← list]; rfl) (by unfold KERNBASE at user; omega)
  refine ⟨⟨low, by omega⟩, ?_, ?_, fun i arg here => ?_, ?_⟩
  · rw [argc]
    exact words 1 _ (by rw [← list]; rfl) (by unfold KERNBASE at user; omega)
  · rw [pointer]
    omega
  · obtain ⟨p,there,above,fits,content⟩ := args i arg here
    obtain ⟨lowI,_⟩ := List.getElem?_eq_some_iff.mp there
    refine ⟨p, ?_, by omega, fits, content⟩
    rw [pointer, show esp + 12 + 4 * i = esp + 4 * (3 + i) by omega]
    refine words _ p ?_ (by unfold KERNBASE at user; omega)
    rw [← list, List.append_assoc, List.getElem?_append_right (by simp), List.getElem?_append_left (by simp; omega)]
    simpa using there
  · rw [pointer, argc, show esp + 12 + 4 * ptrs.length = esp + 4 * (3 + ptrs.length) by omega]
    refine words _ 0 ?_ (by decide)
    have front : ([0xffffffff, ptrs.length, esp + 12] ++ ptrs).length = 3 + ptrs.length := by
      rw [List.length_append, List.length_cons, List.length_cons, List.length_cons, List.length_nil]
    rw [← list, List.getElem?_append_right (Nat.le_of_eq front), front, Nat.sub_self]
    rfl

theorem buildStack_spec {argv : List (List Byte)} (ready : Ready img all dirs held dir sz s) (few : argv.length < MAXARG)
    (short : ∀ arg ∈ argv, arg.length < KERNBASE) :
    wp (fun e => e = .nullPte ∧ wild sz argv sz = true) (buildStack dir sz argv) s fun result t =>
      wild sz argv sz = false ∧ Written dir s t ∧ ∀ sp, result = some sp → Layout t.words dir sz sp argv := by
  have user := ready.user
  have aligned := ready.aligned
  have room := ready.room
  unfold buildStack
  rw [wp_bind]
  have start : sz - PGSIZE ≤ sz ∧ sz ≤ sz ∧ sz % 4 = 0 := by
    unfold PGSIZE at *
    omega
  have run := @pushArgs_spec img all dirs held s dir sz sz argv [] [] ready start short (by rw [List.length_nil]; omega) .nil
  refine wp_mono run fun result t ⟨tame,still,written,after⟩ => ?_
  cases result with
  | none => exact ⟨tame, written, fun sp none => by cases none⟩
  | some result =>
    obtain ⟨sp,ptrs⟩ := result
    obtain ⟨⟨low,high,word⟩,stored⟩ := after sp ptrs rfl
    rw [List.nil_append] at stored
    have argc := List.Forall₂.length_eq stored
    have readyT := ready.still still
    rw [argc] at few
    unfold MAXARG at few
    have down : (sp + 2 ^ 32 - (3 + ptrs.length + 1) * 4) % 2 ^ 32 = sp - 4 * (ptrs.length + 4) := by
      unfold KERNBASE PGSIZE at *
      omega
    have array : (sp + 2 ^ 32 - (ptrs.length + 1) * 4) % 2 ^ 32 = sp - 4 * (ptrs.length + 1) := by
      unfold KERNBASE PGSIZE at *
      omega
    dsimp only
    rw [wp_bind, down, array]
    generalize list : [0xffffffff, ptrs.length, sp - 4 * (ptrs.length + 1)] ++ ptrs ++ [0] = ws
    have count : ws.length = ptrs.length + 4 := by
      rw [← list]
      simp only [List.length_append, List.length_cons, List.length_nil]
      omega
    have long := wordBytes_length ws
    have some : ws.flatMap wordBytes ≠ [] := List.ne_nil_of_length_pos (by omega)
    by_cases page : sz - PGSIZE ≤ sp - 4 * (ptrs.length + 4)
    · refine wp_mono (readyT.put some page (by unfold PGSIZE at *; omega)) fun ok u ⟨yes,_,second,bytes⟩ => ?_
      rw [yes, wp_ite, if_pos rfl]
      refine ⟨tame, written.trans second still.entries, fun esp same => ?_⟩
      obtain rfl := Option.some.inj same
      have last : sp - 4 * (ptrs.length + 4) + 4 * (ptrs.length + 4) = sp := by
        unfold PGSIZE at *
        omega
      have pointer : sp - 4 * (ptrs.length + 1) = sp - 4 * (ptrs.length + 4) + 12 := by omega
      rw [pointer] at list
      refine layout_copied user ⟨page,last,high⟩ (stored.keep (Nat.le_refl sp) fun a below above => ?_) list fun a above below => ?_
      · rw [bytes a below, if_neg (by omega)]
      · rw [bytes a (by omega), if_pos (by omega)]
    · refine wp_mono (readyT.stop some (Nat.not_le.mp page) (by unfold PGSIZE at *; omega)) fun ok u ⟨no,_,second⟩ => ?_
      rw [no, wp_ite, if_neg (by decide)]
      exact ⟨tame, written.trans second still.entries, fun sp none => by cases none⟩

end Words

section Stack

/-- `exec` fills the stack in such states only. It then writes to pages of the new program only, and either returns -1 or
    leaves the arguments on the stack, exactly when no argument takes the stack pointer to where there is no page table. -/
theorem exec_stack {argv : List (List Byte)} (ready : Ready img all dirs held dir sz s) (few : argv.length < MAXARG)
    (short : ∀ arg ∈ argv, arg.length < KERNBASE) :
    (match buildStack dir sz argv s with
      | .error _ => False
      | .ok (none, t) => Written dir s t
      | .ok (some esp, t) => Written dir s t ∧ Layout t.words dir sz esp argv) ↔ wild sz argv sz = false := by
  have after := buildStack_spec ready few short
  unfold wp at after
  generalize buildStack dir sz argv s = out at after ⊢
  cases out with
  | error e => exact ⟨fun no => no.elim, fun tame => by cases tame.symm.trans after.2⟩
  | ok result =>
    obtain ⟨result,t⟩ := result
    obtain ⟨tame,written,layout⟩ := after
    cases result with
    | none => exact ⟨fun _ => tame, fun _ => written⟩
    | some esp => exact ⟨fun _ => tame, fun _ => ⟨written, layout esp rfl⟩⟩

theorem buildStack_wild {argv : List (List Byte)} (ready : Ready img all dirs held dir sz s) (few : argv.length < MAXARG)
    (short : ∀ arg ∈ argv, arg.length < KERNBASE) (escapes : wild sz argv sz = true) : buildStack dir sz argv s = .error .nullPte := by
  have after := buildStack_spec ready few short
  unfold wp at after
  generalize buildStack dir sz argv s = out at after ⊢
  cases out with
  | error e => rw [after.1]
  | ok result => cases escapes.symm.trans after.1

/-- A program without segments: the page of the guard, the page of the stack, and page tables for the kernel. -/
def bareSpace : Mem where
  freelist := []
  words := fun q i =>
    if q = 2000 then (if i = 0 then 2001 * 4096 + 7 else if 512 ≤ i ∧ kernelTable i then (3000 + i) * 4096 + 7 else 0)
    else if q = 2001 then (if i = 0 then 2002 * 4096 + 3 else if i = 1 then 2003 * 4096 + 7 else 0)
    else 0
  deny := fun _ => false

/-- The role of a page of `bareSpace`. -/
def bareRole (p : Nat) : Role :=
  if p = 2000 then .directory 2000
  else if p = 2001 then .table 2000 ⟨0, by decide⟩
  else if p = 2002 then .user 2000 ⟨0, by decide⟩
  else if p = 2003 then .user 2000 ⟨1, by decide⟩
  else .table 2000 ⟨(p - 3000) % 1024, Nat.mod_lt _ (by decide)⟩

theorem bare_directory (d : Nat) : bareSpace.words 2000 d =
    if d = 0 then 2001 * 4096 + 7 else if 512 ≤ d ∧ kernelTable d then (3000 + d) * 4096 + 7 else 0 := rfl

theorem bare_table (i : Nat) : bareSpace.words 2001 i = if i = 0 then 2002 * 4096 + 3 else if i = 1 then 2003 * 4096 + 7 else 0 := rfl

theorem bare_kernel (d i : Nat) : bareSpace.words (3000 + d) i = 0 := by
  unfold bareSpace
  dsimp only
  rw [if_neg (by omega), if_neg (by omega)]

/-- An entry with flags that are set. -/
theorem bare_entry (p : Nat) : present (p * 4096 + 7) = true ∧ frame (p * 4096 + 7) = p := by
  rw [present_iff, frame_eq]
  omega

theorem bare_pte (m : Nat) : pte bareSpace.words 2000 m = if m = 0 then 2002 * 4096 + 3 else if m = 1 then 2003 * 4096 + 7 else 0 := by
  unfold pte
  rw [bare_directory]
  by_cases first : m / 1024 = 0
  · have same : m % 1024 = m := by omega
    rw [if_pos first, (bare_entry 2001).1, (bare_entry 2001).2, if_pos rfl, bare_table, same]
  · rw [if_neg first]
    by_cases kernel : 512 ≤ m / 1024 ∧ kernelTable (m / 1024) = true
    · rw [if_pos kernel, (bare_entry _).1, (bare_entry _).2, if_pos rfl, bare_kernel, if_neg (by omega), if_neg (by omega)]
    · rw [if_neg kernel, if_neg (by decide), if_neg (by omega), if_neg (by omega)]

theorem bare_role {r : Role} {p : Nat} (role : own bareSpace.words [2000] r = some p) : r = bareRole p ∧ 2000 ≤ p ∧ p < 5000 := by
  by_cases there : r.dir ∈ [2000]
  · rw [own_of_mem there] at role
    have only := List.mem_singleton.mp there
    cases r with
    | directory dir =>
      obtain rfl : dir = 2000 := only
      obtain rfl : 2000 = p := Option.some.inj role
      exact ⟨rfl, by decide⟩
    | table dir d =>
      obtain rfl : dir = 2000 := only
      obtain ⟨set,rfl⟩ := entryPage_some role
      rw [bare_directory] at set ⊢
      have low : d.val < 1024 := d.isLt
      by_cases first : d.val = 0
      · rw [if_pos first, (bare_entry _).2]
        exact ⟨congrArg _ (Fin.ext first), by decide⟩
      · rw [if_neg first] at set ⊢
        by_cases kernel : 512 ≤ d.val ∧ kernelTable d.val = true
        · rw [if_pos kernel, (bare_entry _).2]
          unfold bareRole
          rw [if_neg (by omega), if_neg (by omega), if_neg (by omega), if_neg (by omega)]
          refine ⟨congrArg _ (Fin.ext ?_), by omega⟩
          change d.val = (3000 + d.val - 3000) % 1024
          omega
        · rw [if_neg kernel] at set
          cases set
    | user dir m =>
      obtain rfl : dir = 2000 := only
      obtain ⟨set,rfl⟩ := entryPage_some role
      rw [bare_pte] at set ⊢
      by_cases first : m.val = 0
      · rw [if_pos first]
        exact ⟨congrArg _ (Fin.ext first), by decide⟩
      · rw [if_neg first] at set ⊢
        by_cases second : m.val = 1
        · rw [if_pos second]
          exact ⟨congrArg _ (Fin.ext second), by decide⟩
        · rw [if_neg second] at set
          cases set
  · cases (own_outside there).symm.trans role

theorem bareSpace_ready : Ready smallImage (fun p => ∃ r, own bareSpace.words [2000] r = some p) [2000] 0 2000 8192 bareSpace := by
  refine ⟨⟨⟨Multiset.nodup_zero, fun _ _ _ => Multiset.notMem_zero _, fun r r' p left right => ?_, fun p => ?_⟩, fun p => ?_⟩,
    List.mem_singleton_self _, fun m small => ?_, ⟨fun m low high => ?_, fun d low high => ?_⟩, by decide, by decide, by decide, ?_, fun m small other mapped => ?_⟩
  · rw [(bare_role left).1, (bare_role right).1]
  · exact ⟨Or.inr, fun held => held.resolve_left (Multiset.notMem_zero _)⟩
  · rintro ⟨r,role⟩
    obtain ⟨_,low,high⟩ := bare_role role
    have first : v2p smallImage.fin = 0x10a520 := by decide
    rw [first]
    unfold page2pa PGSIZE PHYSTOP
    omega
  · have size : pgroundup 8192 = 8192 := by decide
    rw [bare_pte, size]
    unfold PGSIZE
    by_cases first : m = 0
    · subst first
      decide
    · by_cases second : m = 1
      · subst second
        decide
      · rw [if_neg first, if_neg second]
        refine ⟨fun mapped => (by cases mapped), fun below => ?_⟩
        omega
  · rw [bare_pte]
    unfold userPages at high
    rw [if_neg (by omega), if_neg (by omega)]
    rfl
  · rw [bare_directory]
    unfold userTables at high
    rw [if_neg (by omega)]
    by_cases kernel : kernelTable d = true
    · rw [if_pos ⟨high,kernel⟩, (bare_entry _).1, kernel]
    · rw [if_neg fun both => kernel both.2, Bool.eq_false_iff.mpr kernel]
      rfl
  · rw [show 8192 / PGSIZE - 2 = 0 by decide, bare_pte, if_pos rfl]
    decide
  · rw [show 8192 / PGSIZE - 2 = 0 by decide] at other
    rw [bare_pte, if_neg other] at mapped ⊢
    by_cases second : m = 1
    · rw [if_pos second]
      decide
    · rw [if_neg second] at mapped
      cases mapped

theorem wild_long {arg : List Byte} (size : arg.length = 40000000) : wild 8192 [arg] 8192 = true := by
  have gone : pushed 8192 arg = 0xFD9DC5FC := by
    unfold pushed
    omega
  rw [wild, gone, if_neg (by omega), tableless, Bool.and_eq_true, decide_eq_true_iff, decide_eq_true_iff]
  omega

/-- One argument of 40000000 bytes. -/
theorem exec_stack_wraps :
    Ready smallImage (fun p => ∃ r, own bareSpace.words [2000] r = some p) [2000] 0 2000 8192 bareSpace ∧
    (List.replicate 40000000 (65 : Byte)).length < KERNBASE ∧
    buildStack 2000 8192 [List.replicate 40000000 65] bareSpace = .error .nullPte := by
  have size : (List.replicate 40000000 (65 : Byte)).length = 40000000 := List.length_replicate
  generalize List.replicate 40000000 (65 : Byte) = arg at size ⊢
  have short : arg.length < KERNBASE := by
    rw [size]
    decide
  have only : ∀ a ∈ [arg], a.length < KERNBASE := fun a mem => List.mem_singleton.mp mem ▸ short
  exact ⟨bareSpace_ready, short, buildStack_wild bareSpace_ready (show 1 < MAXARG by decide) only (wild_long size)⟩

theorem exec_stack_one :
    (match buildStack 2000 8192 [[115, 104]] bareSpace with
      | .error _ => False
      | .ok (none, t) => Written 2000 bareSpace t
      | .ok (some esp, t) => Written 2000 bareSpace t ∧ Layout t.words 2000 8192 esp [[115, 104]]) ↔ wild 8192 [[115, 104]] 8192 = false := by
  have short : ∀ arg ∈ [([115, 104] : List Byte)], arg.length < KERNBASE := by decide
  exact exec_stack bareSpace_ready (show [([115, 104] : List Byte)].length < MAXARG by decide) short

end Stack

end Xv6Exec
