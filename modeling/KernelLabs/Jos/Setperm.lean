import KernelLabs.Jos.Monitor

/-!
What the monitor command `setperm` does to the entry it names, for every pair of arguments.
Its help text promises to set, clear or change permissions; the new value is ORed into the
entry, and a negative one passes the range test.
-/
namespace JosPmap

/-- `mon_setperm` printed its line of success. -/
def ReportsSet (text : List Char) : Prop := "Permissions Set Successful\n".toList <:+: text

/-- The flags of the entry at `loc` are now `newPrem`, and nothing else has changed. -/
structure PermSet (s t : Kernel) (loc : PteLoc) (newPrem : Int) : Prop where
  address : pteAddr (t.load loc) = pteAddr (s.load loc)
  flags : (flagBits (t.load loc) : Int) = newPrem
  others : ∀ other, other ≠ loc → t.load other = s.load other

/-- The request is not negative and asks for every flag that the entry has. -/
def AsksAll (entry : Nat) (newPrem : Int) : Prop := 0 ≤ newPrem ∧ flagBits entry ||| newPrem.toNat = newPrem.toNat

theorem hexDigit_ne (n : Nat) (small : n < 16) : hexDigit n ≠ 'S' := by
  have all : ∀ k : Fin 16, hexDigit k.val ≠ 'S' := by decide
  exact all ⟨n,small⟩

theorem hex8_ne (word : Nat) : 'S' ∉ hex8 word := by
  unfold hex8
  rw [List.mem_map]
  rintro ⟨i,_,same⟩
  exact hexDigit_ne _ (Nat.mod_lt _ (by decide)) same

theorem reports_needs {text : List Char} (reports : ReportsSet text) : 'S' ∈ text := by
  have mem : 'S' ∈ "Permissions Set Successful\n".toList := by decide
  exact reports.subset mem

section Write
variable {s : Kernel} {loc : PteLoc}

theorem load_store_self (word : Nat) : (s.store loc word).load loc = word := by
  rw [Kernel.load, mem_store, if_pos ⟨rfl,rfl⟩]

theorem load_store_other {other : PteLoc} (away : other ≠ loc) (word : Nat) :
    (s.store loc word).load other = s.load other := by
  rw [Kernel.load, mem_store, if_neg]
  · rfl
  · rintro ⟨page,index⟩
    exact away (by cases other; cases loc; simp_all)

/-- The entry that `mon_setperm` writes carries the requested flags exactly when it asked for
    all the old ones. -/
theorem permSet_iff {newPrem : Int} (low : newPrem ≤ 0x100) :
    PermSet s (s.store loc (s.load loc ||| unsigned newPrem)) loc newPrem ↔ AsksAll (s.load loc) newPrem := by
  constructor
  · rintro ⟨_,flags,_⟩
    rw [load_store_self] at flags
    have positive : 0 ≤ newPrem := by omega
    have value : unsigned newPrem = newPrem.toNat := by
      unfold unsigned
      omega
    have bits : flagBits newPrem.toNat = newPrem.toNat := Nat.mod_eq_of_lt (by unfold PGSIZE; omega)
    rw [value, flagBits_or, bits] at flags
    exact ⟨positive, by omega⟩
  · rintro ⟨positive,covers⟩
    have value : unsigned newPrem = newPrem.toNat := by
      unfold unsigned
      omega
    have small : newPrem.toNat < PGSIZE := by
      unfold PGSIZE
      omega
    have bits : flagBits newPrem.toNat = newPrem.toNat := Nat.mod_eq_of_lt small
    refine ⟨?_, ?_, fun other away => load_store_other away _⟩
    · have page := frame_or_flags (s.load loc) newPrem.toNat small
      rw [frame_eq_div, frame_eq_div] at page
      rw [load_store_self, value, pteAddr, pteAddr, PGSIZE, page]
    · rw [load_store_self, value, flagBits_or, bits, covers]
      omega

end Write

/-- Success is reported only where the entry was written. -/
theorem monSetperm_reports {s t : Kernel} {pgdir : Nat} {argv : List String} {text : List Char}
    (run : monSetperm s pgdir argv = .ok (text, t)) (reports : ReportsSet text) :
    setpermPrem argv ≤ 0x100 ∧ ∃ loc, pgdirWalk s pgdir (unsigned (setpermStart argv)) false = .ok (some loc, s) ∧
      t = s.store loc (s.load loc ||| unsigned (setpermPrem argv)) := by
  have success := reports_needs reports
  unfold monSetperm at run
  split at run
  · cases run
    exact absurd success (by decide)
  dsimp only at run
  split at run
  · cases run
    exact absurd success (by decide)
  rename_i low
  obtain ⟨⟨found,u⟩,walk,rest⟩ := bind_ok run
  have same := pgdirWalk_same walk
  subst same
  cases found with
  | none =>
    cases rest
    simp only [List.mem_append] at success
    rcases success with (first | digits) | last
    · exact absurd first (by decide)
    · exact absurd digits (hex8_ne _)
    · exact absurd last (by decide)
  | some loc =>
    cases rest
    exact ⟨by omega, loc, walk, rfl⟩

theorem monSetperm_writes {s : Kernel} {pgdir va : Nat} {loc : PteLoc}
    (walk : pgdirWalk s pgdir va false = .ok (some loc, s)) (argv : List String) (args : argv.length = 3)
    (start : unsigned (setpermStart argv) = va) (low : setpermPrem argv ≤ 0x100) :
    ∃ text, monSetperm s pgdir argv = .ok (text, s.store loc (s.load loc ||| unsigned (setpermPrem argv))) ∧
      ReportsSet text := by
  subst start
  have line : "Permissions Set Successful\nNew Permissions:\n".toList =
      "Permissions Set Successful\n".toList ++ "New Permissions:\n".toList := by decide
  unfold monSetperm
  rw [if_neg (by simp [args])]
  dsimp only
  rw [if_neg (by omega), walk, line]
  refine ⟨_, rfl, ?_⟩
  simp only [ReportsSet, List.append_assoc]
  iterate 4 refine List.infix_append_of_infix_right ?_
  exact List.infix_append_left

/-- Whenever `setperm` reports success: the flags are the requested ones, and all else is as
    before, exactly when the request is not negative and has every flag of the entry. -/
theorem setperm_exact_iff (s t : Kernel) (pgdir : Nat) (argv : List String) (text : List Char)
    (run : monSetperm s pgdir argv = .ok (text, t)) (reports : ReportsSet text) :
    ∃ loc, pgdirWalk s pgdir (unsigned (setpermStart argv)) false = .ok (some loc, s) ∧
      (PermSet s t loc (setpermPrem argv) ↔ AsksAll (s.load loc) (setpermPrem argv)) := by
  obtain ⟨low,loc,walk,rfl⟩ := monSetperm_reports run reports
  exact ⟨loc, walk, permSet_iff low⟩

/-- One table, with one page mapped read-write for the kernel. -/
def onePage : Kernel :=
  ⟨8, fun _ => ⟨none, 1⟩, none, fun p i => if p = 1 ∧ i = 0 then 0x2007 else if p = 2 ∧ i = 0 then 0x3003 else 0,
    fun _ => none⟩

theorem onePage_walk : pgdirWalk onePage 1 0 false = .ok (some ⟨2, 0⟩, onePage) := by
  rfl

theorem setperm_exact_iff_onePage : ∃ text t, monSetperm onePage 1 ["setperm", "0x0", "0x7"] = .ok (text, t) ∧
    ReportsSet text ∧ PermSet onePage t ⟨2, 0⟩ 7 := by
  obtain ⟨text,run,reports⟩ := monSetperm_writes onePage_walk ["setperm", "0x0", "0x7"] rfl (by decide) (by decide)
  obtain ⟨loc,walk,exact⟩ := setperm_exact_iff onePage _ 1 _ text run reports
  have start : unsigned (setpermStart ["setperm", "0x0", "0x7"]) = 0 := by decide
  rw [start, onePage_walk] at walk
  cases walk
  have value : setpermPrem ["setperm", "0x0", "0x7"] = 7 := by decide
  rw [value] at exact
  exact ⟨text, _, run, reports, exact.mpr ⟨by decide, by decide⟩⟩

/-- `setperm 0x0 0x1` reports success and leaves the page writable; `setperm 0x0 -1` sets every
    bit of its address. -/
theorem setperm_adds_only :
    (∃ text t, monSetperm onePage 1 ["setperm", "0x0", "0x1"] = .ok (text, t) ∧ ReportsSet text ∧
      t.load ⟨2, 0⟩ = 0x3003 ∧ ¬ PermSet onePage t ⟨2, 0⟩ 1) ∧
    ∃ text t, monSetperm onePage 1 ["setperm", "0x0", "-1"] = .ok (text, t) ∧ ReportsSet text ∧
      t.load ⟨2, 0⟩ = 0xffffffff ∧ ¬ PermSet onePage t ⟨2, 0⟩ (-1) := by
  obtain ⟨one,runOne,reportsOne⟩ := monSetperm_writes onePage_walk ["setperm", "0x0", "0x1"] rfl (by decide) (by decide)
  obtain ⟨all,runAll,reportsAll⟩ := monSetperm_writes onePage_walk ["setperm", "0x0", "-1"] rfl (by decide) (by decide)
  refine ⟨⟨one, _, runOne, reportsOne, by decide, fun set => ?_⟩, all, _, runAll, reportsAll, by decide, fun set => ?_⟩
  · exact absurd set.flags (by decide)
  · exact absurd set.flags (by decide)

end JosPmap
