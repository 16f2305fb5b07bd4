import KernelLabs.Jos.PageRefs

/-!
The monitor command `setperm` (lab-3 `kern/monitor.c`, with `strtol` of `lib/string.c`). It
ORs its argument into the entry of an address, present or not, and prints the flags before
and after. A `long` has 32 bits; the argument is refused above 0x100 only.
-/
namespace JosPmap

/-- The value of a `long` after arithmetic that may overflow. -/
def long (value : Int) : Int := Int.bmod value (2 ^ 32)

/-- The `uint32_t` with the bits of a `long`. -/
def unsigned (value : Int) : Nat := (value % 2 ^ 32).toNat

def strtolDigit (c : Char) : Option Nat :=
  if '0' ≤ c ∧ c ≤ '9' then some (c.toNat - '0'.toNat)
  else if 'a' ≤ c ∧ c ≤ 'z' then some (c.toNat - 'a'.toNat + 10)
  else if 'A' ≤ c ∧ c ≤ 'Z' then some (c.toNat - 'A'.toNat + 10)
  else none

def strtolDigits (base : Nat) : List Char → Int → Int
  | [], val => val
  | c :: s, val =>
    match strtolDigit c with
    | none => val
    | some dig => if dig ≥ base then val else strtolDigits base s (long (val * base + dig))

/-- The base and the digits after the prefix. -/
def strtolBase (base : Nat) (s : List Char) : Nat × List Char :=
  if (base = 0 ∨ base = 16) ∧ s[0]? = some '0' ∧ s[1]? = some 'x' then (16, s.drop 2)
  else if base = 0 ∧ s[0]? = some '0' then (8, s.drop 1)
  else if base = 0 then (10, s)
  else (base, s)

def strtol (s : List Char) (base : Nat) : Int :=
  let s := s.dropWhile fun c => c == ' ' || c == '\t'
  let neg := s.head? == some '-'
  let s := if s.head? = some '+' ∨ s.head? = some '-' then s.tail else s
  let (base, s) := strtolBase base s
  let val := strtolDigits base s 0
  if neg then long (-val) else val

def hexDigit (n : Nat) : Char := if n < 10 then Char.ofNat ('0'.toNat + n) else Char.ofNat ('a'.toNat + (n - 10))

/-- `%08x`. -/
def hex8 (word : Nat) : List Char := (List.range 8).map fun i => hexDigit (word / 16 ^ (7 - i) % 16)

def flagLetter (entry flag : Nat) (c : Char) : Char := if entry &&& flag != 0 then c else '-'

/-- The ten rows of `permissions`, each up to its first NUL. -/
def permissions (entry : Nat) : List (List Char) :=
  [[flagLetter entry PTE_U 'U'], [flagLetter entry PTE_W 'W'], [flagLetter entry PTE_P 'P'],
   [flagLetter entry PTE_PWT 'P', flagLetter entry PTE_PCD 'C', flagLetter entry PTE_PCD 'D'],
   [flagLetter entry PTE_A 'A'], [flagLetter entry PTE_D 'D'],
   [flagLetter entry PTE_PS 'P', flagLetter entry PTE_PS 'S'], [flagLetter entry PTE_G 'G'], [], []]

def permissionLine (entry : Nat) : List Char := (permissions entry).flatMap (fun row => row ++ [' ']) ++ ['\n']

def setpermStart (argv : List String) : Int := strtol ((argv.getD 1 "").toList) 16
def setpermPrem (argv : List String) : Int := strtol ((argv.getD 2 "").toList) 16

/-- What is printed, and the kernel with the new entry. -/
def monSetperm (s : Kernel) (kernPgdir : Nat) (argv : List String) : Except Panic (List Char × Kernel) :=
  if argv.length ≠ 3 then return ("Usage: setperm <start_address> <Permission-bit>\n".toList, s)
  else
    let start := unsigned (setpermStart argv)
    let newPrem := setpermPrem argv
    if newPrem > 0x100 then return ("Invalid Permission\n".toList, s)
    else do
      match ← pgdirWalk s kernPgdir start false with
      | (none, s) =>
        return ("Warning: Address ".toList ++ hex8 start ++ " is not mapped\n".toList, s)
      | (some pte, s) =>
        let old := s.load pte
        let s := s.store pte (old ||| unsigned newPrem)
        return ("Virtual Address: ".toList ++ hex8 start ++ "\nOld Permissions:\n".toList ++
          permissionLine old ++ "Permissions Set Successful\nNew Permissions:\n".toList ++
          permissionLine (s.load pte), s)

section Setperm
variable {managed : Nat → Prop} {pgdir : Nat} {s : Kernel}

/-- The write of `mon_setperm`. -/
def setpermWrite (s : Kernel) (pgdir start : Nat) (newPrem : Int) : PteLoc × Nat :=
  (entryLoc s pgdir (pgnum start), pte s pgdir (pgnum start) ||| unsigned newPrem)

/-- Below `UTOP` `mon_setperm` never panics, and it writes at most one entry. -/
theorem monSetperm_spec {held : Option Nat} (acc : Accounted managed pgdir held s) {argv : List String}
    (user : unsigned (setpermStart argv) < UTOP) :
    (∃ text, monSetperm s pgdir argv = .ok (text, s)) ∨
    (argv.length = 3 ∧ setpermPrem argv ≤ 0x100 ∧
      present (pde s pgdir (pdx (unsigned (setpermStart argv)))) = true ∧
      ∃ text, monSetperm s pgdir argv = .ok (text,
        s.store (setpermWrite s pgdir (unsigned (setpermStart argv)) (setpermPrem argv)).1
          (setpermWrite s pgdir (unsigned (setpermStart argv)) (setpermPrem argv)).2)) := by
  unfold monSetperm
  by_cases args : argv.length ≠ 3
  · rw [if_pos args]
    exact Or.inl ⟨_,rfl⟩
  rw [if_neg args]
  by_cases large : setpermPrem argv > 0x100
  · simp only [if_pos large]
    exact Or.inl ⟨_,rfl⟩
  simp only [if_neg large]
  by_cases here : present (pde s pgdir (pdx (unsigned (setpermStart argv)))) = true
  · right
    refine ⟨by simpa using args, by omega, here, ?_⟩
    have loc : (⟨frame (pde s pgdir (pdx (unsigned (setpermStart argv)))),
        ptx (unsigned (setpermStart argv))⟩ : PteLoc) = entryLoc s pgdir (pgnum (unsigned (setpermStart argv))) := by
      simp only [entryLoc, pgnum_div_eq_pdx _ user, pgnum_mod_eq_ptx]
    have word := load_entry user here
    rw [pgdirWalk_found acc user here false]
    simp only [setpermWrite, ← loc, ← word]
    exact ⟨_,rfl⟩
  · have absent : present (pde s pgdir (pdx (unsigned (setpermStart argv)))) = false := by simpa using here
    rw [pgdirWalk_absent absent]
    exact Or.inl ⟨_,rfl⟩

/-- An entry that keeps its page and its presence keeps the accounting. -/
theorem reword_accounted (acc : Accounted managed pgdir none s) {n word : Nat} (user : n < userPages)
    (here : present (pde s pgdir (n / NPTENTRIES)) = true)
    (flag : present word = present (pte s pgdir n))
    (target : present word = true → frame word = frame (pte s pgdir n)) :
    Accounted managed pgdir none (s.store (entryLoc s pgdir n) word) := by
  have dir := pde_store_entry acc user here word
  have sameTables : SameTables s (s.store (entryLoc s pgdir n) word) pgdir :=
    same_tables_of_eq (fun d _ => dir d)
  constructor
  · exact acc.managed_in_memory
  · exact acc.directory_unmanaged
  · exact acc.free_chain
  · exact acc.taken_unlinked
  · intro q table
    exact acc.tables_taken q (is_table_congr sameTables table)
  · intro d e hd he
    rw [dir, dir]
    exact acc.tables_distinct d e hd he
  · intro m inside
    rw [pte_store_entry acc user here word m inside]
    split
    · rename_i same
      subst same
      intro there
      rw [target there]
      exact acc.frames_taken m inside (flag ▸ there)
    · exact acc.frames_taken m inside
  · exact acc.held_taken
  · intro q hq
    have change := refs_store_entry acc user here word q
    have same : MapsTo s pgdir q n ↔ present word = true ∧ frame word = q := by
      unfold MapsTo
      rw [← flag]
      constructor
      · rintro ⟨there,page⟩
        exact ⟨there, (target there).trans page⟩
      · rintro ⟨there,page⟩
        exact ⟨there, (target there).symm.trans page⟩
    simp only [same] at change
    have equal : refs (s.store (entryLoc s pgdir n) word) pgdir q = refs s pgdir q := by omega
    rw [equal]
    exact acc.counted q hq

end Setperm
end JosPmap
