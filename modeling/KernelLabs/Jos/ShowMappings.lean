import KernelLabs.Jos.Monitor

/-!
The monitor command `showmappings` (lab-3 `kern/monitor.c`). It walks from the smaller to the
larger of two addresses as `long`s compare them, a page at a time, and prints a row for each
address. The loop variable wraps after 0x7fffffff, where an inclusive bound never stops it.
-/
namespace JosPmap

/-- A printed line; the second kind has the entry whose flags it shows. -/
inductive Row where
  | unmapped (va : Nat)
  | entry (va word : Nat)
  deriving DecidableEq, Repr

def Row.va : Row → Nat
  | .unmapped va => va
  | .entry va _ => va

def Row.text : Row → List Char
  | .unmapped va => hex8 va ++ "\t\tUnmapped\t\t-\n".toList
  | .entry va word => hex8 va ++ "\t\t".toList ++ hex8 (pteAddr word) ++ "\t\t".toList ++ permissionLine word

def showRow (s : Kernel) (kernPgdir va : Nat) : Except Panic Row := do
  match ← pgdirWalk s kernPgdir va false with
  | (none, _) => return .unmapped va
  | (some pte, s) => return .entry va (s.load pte)

/-- The loop up to `stop`, with nothing when it has not ended within the fuel. -/
def showRows (s : Kernel) (kernPgdir : Nat) (stop : Int) : Nat → Int → Except Panic (Option (List Row))
  | 0, i => return if i ≤ stop then none else some []
  | fuel + 1, i =>
    if i ≤ stop then do
      let row ← showRow s kernPgdir (unsigned i)
      let rest ← showRows s kernPgdir stop fuel (long (i + PGSIZE))
      return rest.map (row :: ·)
    else return some []

def showStart (argv : List String) : Int := strtol ((argv.getD 1 "").toList) 16
def showEnd (argv : List String) : Int := strtol ((argv.getD 2 "").toList) 16

/-- The rows that `mon_showmappings` prints, after the swap. -/
def shownRows (fuel : Nat) (s : Kernel) (kernPgdir : Nat) (argv : List String) : Except Panic (Option (List Row)) :=
  if showEnd argv < showStart argv then showRows s kernPgdir (showStart argv) fuel (showEnd argv)
  else showRows s kernPgdir (showEnd argv) fuel (showStart argv)

def showHeading (argv : List String) : List Char :=
  (if showEnd argv < showStart argv then "Warning: End Address Should be Greater Than Start Address\n".toList else []) ++
    "Virtual Address\t\tPhysical Address\t\tPermissions\n".toList

def monShowmappings (fuel : Nat) (s : Kernel) (kernPgdir : Nat) (argv : List String) :
    Except Panic (Option (List Char)) :=
  if argv.length ≠ 3 then return some "Usage: showmappings <start_address> <end_address>\n".toList
  else do
    let rows ← shownRows fuel s kernPgdir argv
    return rows.map fun rows => showHeading argv ++ rows.flatMap Row.text ++ ['\n']

/-- `KADDR` accepts every page table of the directory. -/
def TablesInMemory (s : Kernel) (pgdir : Nat) : Prop :=
  ∀ d, d < 1024 → present (pde s pgdir d) = true → frame (pde s pgdir d) < s.npages

section Rows
variable {s : Kernel} {pgdir : Nat}

def rowOf (s : Kernel) (pgdir va : Nat) : Row :=
  if present (pde s pgdir (pdx va)) = true then .entry va (pte s pgdir (pgnum va)) else .unmapped va

theorem showRow_eq (tables : TablesInMemory s pgdir) {va : Nat} (word : va < 2 ^ 32) :
    showRow s pgdir va = .ok (rowOf s pgdir va) := by
  have slot : pgnum va / NPTENTRIES = pdx va := by
    simp only [pgnum, pdx, PGSIZE, NPTENTRIES]
    omega
  by_cases here : present (pde s pgdir (pdx va)) = true
  · have table : kaddr s (pteAddr (pde s pgdir (pdx va))) = .ok (frame (pde s pgdir (pdx va))) := by
      have small := tables (pdx va) (Nat.mod_lt _ (by decide)) here
      simp only [kaddr]
      rw [if_neg (by simp only [frame] at small; omega)]
      rfl
    have walk : pgdirWalk s pgdir va false = .ok (some ⟨frame (pde s pgdir (pdx va)), ptx va⟩, s) := by
      simp only [pde] at here table
      simp only [pgdirWalk, Kernel.load, here, ↓reduceIte, table]
      rfl
    rw [showRow, walk, rowOf, if_pos here, pte, slot, if_pos here]
    rfl
  · have absent : present (pde s pgdir (pdx va)) = false := by simpa using here
    rw [showRow, pgdirWalk_absent absent, rowOf, if_neg here]
    rfl

theorem rowOf_va (va : Nat) : (rowOf s pgdir va).va = va := by
  unfold rowOf
  split <;> rfl

theorem rowOf_unmapped (va : Nat) : rowOf s pgdir va = .unmapped va ↔ present (pde s pgdir (pdx va)) = false := by
  unfold rowOf
  split
  · rename_i here
    simp [here]
  · rename_i absent
    simp [absent]

theorem unsigned_lt (value : Int) : unsigned value < 2 ^ 32 := by
  unfold unsigned
  omega

theorem page_int : (PGSIZE : Int) = 4096 := rfl

theorem long_eq {value : Int} (low : -2 ^ 31 ≤ value) (high : value < 2 ^ 31) : long value = value := by
  unfold long
  exact Int.bmod_eq_of_le (by omega) (by omega)

/-- Short of the last `long` the loop ends, one row a page. -/
theorem showRows_ends (tables : TablesInMemory s pgdir) {stop : Int} (count : Nat) {i : Int} (low : -2 ^ 31 ≤ i)
    (inside : count ≠ 0 → i + PGSIZE * (count - 1) ≤ stop) (past : stop < i + PGSIZE * count)
    (high : i + PGSIZE * count < 2 ^ 31) :
    showRows s pgdir stop count i =
      .ok (some ((List.range count).map fun k : Nat => rowOf s pgdir (unsigned (i + PGSIZE * k)))) := by
  induction count generalizing i with
  | zero =>
    rw [showRows, if_neg (by simpa using past)]
    rfl
  | succ count ih =>
    have within := inside (by omega)
    simp only [page_int, Nat.cast_add, Nat.cast_one] at *
    have next := ih (i := i + 4096) (by omega) (fun _ => by omega) (by omega) (by omega)
    have wrap : long (i + 4096) = i + 4096 := long_eq (by omega) (by omega)
    rw [showRows, if_pos (by omega), showRow_eq tables (unsigned_lt i), page_int, wrap]
    change (showRows s pgdir stop count (i + 4096) >>= fun rest => pure (rest.map (rowOf s pgdir (unsigned i) :: ·))) = _
    rw [next, List.range_succ_eq_map, List.map_cons, List.map_map]
    simp only [Nat.cast_zero, Int.mul_zero, Int.add_zero, Function.comp_def, Nat.succ_eq_add_one, Nat.cast_add,
      Nat.cast_one, Int.mul_add, Int.mul_one]
    have shift : ∀ k : Nat, i + 4096 + 4096 * (k : Int) = i + (4096 * (k : Int) + 4096) := fun k => by omega
    simp only [shift]
    rfl

/-- When the step after the last row leaves the range of `long`, the loop never ends. -/
theorem showRows_never (tables : TablesInMemory s pgdir) {stop : Int} (last : Int) (high : last ≤ stop)
    (wraps : 2 ^ 31 ≤ last + PGSIZE) (bounded : last < 2 ^ 31) (fuel : Nat) {i : Int} (low : -2 ^ 31 ≤ i)
    (inside : i ≤ last) (aligned : (PGSIZE : Int) ∣ last - i) : showRows s pgdir stop fuel i = .ok none := by
  rw [page_int] at wraps aligned
  induction fuel generalizing i with
  | zero =>
    rw [showRows, if_pos (by omega)]
    rfl
  | succ fuel ih =>
    have next : -2 ^ 31 ≤ long (i + 4096) ∧ long (i + 4096) ≤ last ∧ 4096 ∣ last - long (i + 4096) := by
      by_cases fits : i + 4096 < 2 ^ 31
      · rw [long_eq (by omega) fits]
        omega
      · have wrapped : long (i + 4096) = i + 4096 - 2 ^ 32 := by
          have shift : long (i + 4096) = long (i + 4096 - 2 ^ 32) := by
            unfold long
            exact (Int.sub_bmod_right _ _).symm
          rw [shift]
          exact long_eq (by omega) (by omega)
        rw [wrapped]
        omega
    rw [showRows, if_pos (by omega), showRow_eq tables (unsigned_lt i), page_int]
    change (showRows s pgdir stop fuel (long (i + 4096)) >>= _) = _
    rw [ih next.1 next.2.1 next.2.2]
    rfl

theorem showRows_more {stop : Int} {fuel : Nat} {i : Int} {rows : List Row}
    (run : showRows s pgdir stop fuel i = .ok (some rows)) (extra : Nat) :
    showRows s pgdir stop (fuel + extra) i = .ok (some rows) := by
  induction fuel generalizing i rows with
  | zero =>
    rw [showRows] at run
    split at run
    · cases run
    · rename_i past
      cases run
      cases extra with
      | zero => rw [showRows, if_neg past]; rfl
      | succ extra => rw [Nat.zero_add, showRows, if_neg past]; rfl
  | succ fuel ih =>
    rw [Nat.succ_add, showRows]
    rw [showRows] at run
    split at run
    · rename_i here
      obtain ⟨row,first,rest⟩ := bind_ok run
      obtain ⟨later,tail,done⟩ := bind_ok rest
      cases later with
      | none => cases done
      | some later =>
        rw [if_pos here, first]
        change (showRows s pgdir stop (fuel + extra) _ >>= _) = _
        rw [ih tail]
        exact done
    · rename_i past
      rw [if_neg past]
      exact run

theorem showRows_unique {stop : Int} {fuel other : Nat} {i : Int} {rows others : List Row}
    (run : showRows s pgdir stop fuel i = .ok (some rows)) (again : showRows s pgdir stop other i = .ok (some others)) :
    rows = others := by
  have one := showRows_more run other
  have two := showRows_more again fuel
  rw [Nat.add_comm, one] at two
  simpa using two

theorem showRows_head (tables : TablesInMemory s pgdir) {stop : Int} {fuel : Nat} {i : Int} {rows : List Row}
    (here : i ≤ stop) (run : showRows s pgdir stop fuel i = .ok (some rows)) :
    ∃ rest, rows = rowOf s pgdir (unsigned i) :: rest := by
  cases fuel with
  | zero =>
    rw [showRows, if_pos here] at run
    cases run
  | succ fuel =>
    rw [showRows, if_pos here, showRow_eq tables (unsigned_lt i)] at run
    obtain ⟨rest,_,done⟩ := bind_ok (show (showRows s pgdir stop fuel (long (i + PGSIZE)) >>= _) = _ from run)
    cases rest with
    | none => cases done
    | some rest =>
      cases done
      exact ⟨rest,rfl⟩

end Rows

section Arguments

def hexValue (digits : List Char) (value : Nat) : Nat :=
  digits.foldl (fun value c => value * 16 + (strtolDigit c).getD 0) value

/-- An address of 32 bits written in hexadecimal, with or without `0x`. -/
def HexText (text : List Char) (a : Nat) : Prop :=
  ∃ digits, digits ≠ [] ∧ (text = digits ∨ text = '0' :: 'x' :: digits) ∧
    (∀ c ∈ digits, ∃ d, strtolDigit c = some d ∧ d < 16) ∧ hexValue digits 0 = a ∧ a < 2 ^ 32

theorem strtolDigits_hex {digits : List Char} (hex : ∀ c ∈ digits, ∃ d, strtolDigit c = some d ∧ d < 16) (value : Nat) :
    strtolDigits 16 digits (long value) = long (hexValue digits value) := by
  induction digits generalizing value with
  | nil => rfl
  | cons c digits ih =>
    obtain ⟨d,digit,small⟩ := hex c (by simp)
    have step : long (long value * (16 : Nat) + d) = long ((value * 16 + d : Nat) : Int) := by
      unfold long
      rw [← Int.bmod_add_bmod, Int.bmod_mul_bmod, Int.bmod_add_bmod]
      push_cast
      rfl
    have later := ih (fun e mem => hex e (List.mem_cons_of_mem c mem)) (value * 16 + d)
    rw [strtolDigits, digit]
    simp only [ge_iff_le, Nat.not_le.mpr small, ↓reduceIte]
    rw [step, later]
    simp [hexValue, digit]

theorem strtol_hex {text : List Char} {a : Nat} (hex : HexText text a) : strtol text 16 = long a := by
  obtain ⟨digits,some,shape,all,value,_⟩ := hex
  have run := strtolDigits_hex all 0
  have zero : long ((0 : Nat) : Int) = 0 := by decide
  rw [value, zero] at run
  obtain ⟨c,rest,rfl⟩ := List.exists_cons_of_ne_nil some
  obtain ⟨d,digit,small⟩ := all c (by simp)
  have isDigit : (strtolDigit c).isSome = true := by rw [digit]; rfl
  have plain : c ≠ ' ' ∧ c ≠ '\t' ∧ c ≠ '+' ∧ c ≠ '-' := by
    refine ⟨?_, ?_, ?_, ?_⟩ <;> rintro rfl <;> exact absurd isDigit (by decide)
  rcases shape with rfl | rfl
  · have unmarked : strtolBase 16 (c :: rest) = (16, c :: rest) := by
      unfold strtolBase
      rw [if_neg, if_neg (by simp), if_neg (by decide)]
      rintro ⟨_,_,second⟩
      cases rest with
      | nil => simp at second
      | cons e rest =>
        have same : e = 'x' := by simpa using second
        obtain ⟨d,digit,small⟩ := all e (by simp)
        rw [same] at digit
        have large : strtolDigit 'x' = Option.some 33 := by decide
        rw [large] at digit
        simp only [Option.some.injEq] at digit
        omega
    simp [strtol, plain, unmarked, run]
  · have marked : strtolBase 16 ('0' :: 'x' :: c :: rest) = (16, c :: rest) := by simp [strtolBase]
    simp [strtol, marked, run]

/-- The swap orders the two `long`s. -/
theorem shownRows_eq (fuel : Nat) (s : Kernel) (pgdir : Nat) (argv : List String) :
    shownRows fuel s pgdir argv = showRows s pgdir (max (showStart argv) (showEnd argv)) fuel
      (min (showStart argv) (showEnd argv)) := by
  unfold shownRows
  split
  · rename_i swapped
    rw [max_eq_left (by omega), min_eq_right (by omega)]
  · rename_i ordered
    rw [max_eq_right (by omega), min_eq_left (by omega)]

end Arguments

/-- One row for each page from the lower address on, up to the higher one, unmapped exactly
    where there is no present entry. -/
def ShownRight (s : Kernel) (pgdir low high : Nat) (rows : List Row) : Prop :=
  rows.map Row.va = (List.range ((high - low) / PGSIZE + 1)).map (fun k => low + PGSIZE * k) ∧
  ∀ row ∈ rows, row = .unmapped row.va ↔ present (pte s pgdir (pgnum row.va)) = false

/-- Both addresses are in one half of the address space and, if it is the lower half, the page
    after the last one is still in it. -/
def OneHalf (low high : Nat) : Prop :=
  2 ^ 31 ≤ low ∨ high < 2 ^ 31 ∧ high - (high - low) % PGSIZE + PGSIZE < 2 ^ 31

/-- No page of the range has a table in which its entry is not present. -/
def NoVacantEntry (s : Kernel) (pgdir low high : Nat) : Prop :=
  ∀ k, k ≤ (high - low) / PGSIZE → present (pde s pgdir (pdx (low + PGSIZE * k))) = true →
    present (pte s pgdir (pgnum (low + PGSIZE * k))) = true

section Shown
variable {s : Kernel} {pgdir low high : Nat}

theorem long_of_word {a : Nat} (word : a < 2 ^ 32) : long a = if a < 2 ^ 31 then (a : Int) else a - 2 ^ 32 := by
  split
  · exact long_eq (by omega) (by omega)
  · have shift : long a = long (a - 2 ^ 32) := by
      unfold long
      exact (Int.sub_bmod_right _ _).symm
    rw [shift]
    exact long_eq (by omega) (by omega)

/-- A range of `long`s that the loop variable does not leave. -/
theorem showRows_range (tables : TablesInMemory s pgdir) (ordered : low ≤ high) (word : high < 2 ^ 32)
    {base : Int} (shift : base = 0 ∨ base = - 2 ^ 32) (bottom : - 2 ^ 31 ≤ base + low)
    (top : base + (high - (high - low) % 4096 + 4096 : Nat) < 2 ^ 31) :
    showRows s pgdir (base + high) ((high - low) / 4096 + 1) (base + low) =
      .ok (some ((List.range ((high - low) / 4096 + 1)).map fun k => rowOf s pgdir (low + PGSIZE * k))) := by
  have addresses : ∀ k : Nat, k ∈ List.range ((high - low) / 4096 + 1) →
      unsigned (base + low + PGSIZE * k) = low + PGSIZE * k := by
    intro k mem
    rw [List.mem_range] at mem
    rw [page_int, unsigned, PGSIZE]
    omega
  rw [showRows_ends tables ((high - low) / 4096 + 1) bottom (fun _ => by rw [page_int]; omega)
    (by rw [page_int]; omega) (by rw [page_int]; omega)]
  congr 2
  exact List.map_congr_left fun k mem => by rw [addresses k mem]

/-- In one half of the address space the loop ends and prints every page. -/
theorem showRows_half (tables : TablesInMemory s pgdir) (ordered : low ≤ high) (word : high < 2 ^ 32)
    (half : OneHalf low high) :
    showRows s pgdir (max (long low) (long high)) ((high - low) / 4096 + 1) (min (long low) (long high)) =
      .ok (some ((List.range ((high - low) / 4096 + 1)).map fun k => rowOf s pgdir (low + PGSIZE * k))) := by
  have lower := long_of_word (Nat.lt_of_le_of_lt ordered word)
  have upper := long_of_word word
  unfold OneHalf PGSIZE at half
  rcases half with above | ⟨below,step⟩
  · rw [if_neg (by omega)] at lower upper
    have first : min (long low) (long high) = - 2 ^ 32 + low := by omega
    have last : max (long low) (long high) = - 2 ^ 32 + high := by omega
    rw [first, last]
    exact showRows_range tables ordered word (Or.inr rfl) (by omega) (by omega)
  · rw [if_pos (by omega)] at lower upper
    have first : min (long low) (long high) = 0 + low := by omega
    have last : max (long low) (long high) = 0 + high := by omega
    rw [first, last]
    exact showRows_range tables ordered word (Or.inl rfl) (by omega) (by omega)

/-- Across the middle the loop starts at the higher address; at the end of the lower half it
    does not stop. -/
theorem half_of_shown (tables : TablesInMemory s pgdir) (ordered : low ≤ high) (word : high < 2 ^ 32) {fuel : Nat}
    {rows : List Row} (run : showRows s pgdir (max (long low) (long high)) fuel (min (long low) (long high)) =
      .ok (some rows)) (right : ShownRight s pgdir low high rows) : OneHalf low high := by
  by_contra outside
  have lower := long_of_word (Nat.lt_of_le_of_lt ordered word)
  have upper := long_of_word word
  unfold OneHalf PGSIZE at outside
  by_cases below : high < 2 ^ 31
  · rw [if_pos (by omega)] at lower upper
    have first : min (long low) (long high) = low := by omega
    have last : max (long low) (long high) = high := by omega
    have never : showRows s pgdir high fuel low = .ok none :=
      showRows_never tables (high - (high - low) % 4096 : Nat) (by omega) (by rw [page_int]; omega) (by omega) fuel
        (by omega) (by omega) (by rw [page_int]; omega)
    rw [first, last, never] at run
    cases run
  · rw [if_pos (by omega)] at lower
    rw [if_neg below] at upper
    have first : min (long low) (long high) = high - 2 ^ 32 := by omega
    obtain ⟨rest,rfl⟩ := showRows_head tables (by omega) run
    have head := congrArg List.head? right.1
    rw [List.range_succ_eq_map] at head
    simp only [List.map_cons, List.head?_cons, rowOf_va, Nat.mul_zero, Nat.add_zero, Option.some.injEq, first] at head
    unfold unsigned at head
    omega

theorem range_right_iff (ordered : low ≤ high) (word : high < 2 ^ 32) : ShownRight s pgdir low high
      ((List.range ((high - low) / 4096 + 1)).map fun k => rowOf s pgdir (low + PGSIZE * k)) ↔
    NoVacantEntry s pgdir low high := by
  constructor
  · rintro ⟨_,marks⟩ k inside here
    have mem : rowOf s pgdir (low + PGSIZE * k) ∈
        (List.range ((high - low) / 4096 + 1)).map fun k => rowOf s pgdir (low + PGSIZE * k) :=
      List.mem_map.mpr ⟨k, List.mem_range.mpr (Nat.lt_succ_of_le inside), rfl⟩
    have mark := marks _ mem
    rw [rowOf_va, rowOf_unmapped] at mark
    by_contra absent
    rw [Bool.not_eq_true] at absent
    rw [mark.mpr absent] at here
    cases here
  · intro full
    refine ⟨?_, fun row mem => ?_⟩
    · rw [List.map_map]
      exact List.map_congr_left fun k _ => rowOf_va _
    · obtain ⟨k,inside,rfl⟩ := List.mem_map.mp mem
      rw [rowOf_va, rowOf_unmapped]
      have present_iff := full k (Nat.le_of_lt_succ (List.mem_range.mp inside))
      constructor
      · intro absent
        have slot : pgnum (low + PGSIZE * k) / NPTENTRIES = pdx (low + PGSIZE * k) := by
          have inside := List.mem_range.mp inside
          simp only [pgnum, pdx, PGSIZE, NPTENTRIES]
          omega
        rw [pte, slot, absent, if_neg (by simp), not_present_zero]
      · intro absent
        by_contra here
        rw [Bool.not_eq_false] at here
        rw [present_iff here] at absent
        cases absent

/-- For two addresses in hexadecimal, `showmappings` ends with the rows it should print exactly
    when they are in one half of the address space, with a page to spare at the end of the lower
    half, and no entry between them is vacant in a table. -/
theorem showmappings_right_iff (s : Kernel) (pgdir : Nat) (tables : TablesInMemory s pgdir) (name first second : String)
    (a b : Nat) (hexA : HexText first.toList a) (hexB : HexText second.toList b) :
    (∃ fuel rows, monShowmappings fuel s pgdir [name, first, second] =
        .ok (some (showHeading [name, first, second] ++ rows.flatMap Row.text ++ ['\n'])) ∧
      shownRows fuel s pgdir [name, first, second] = .ok (some rows) ∧ ShownRight s pgdir (min a b) (max a b) rows) ↔
    OneHalf (min a b) (max a b) ∧ NoVacantEntry s pgdir (min a b) (max a b) := by
  have ordered : min a b ≤ max a b := by omega
  have word : max a b < 2 ^ 32 := by
    obtain ⟨_,_,_,_,_,wordA⟩ := hexA
    obtain ⟨_,_,_,_,_,wordB⟩ := hexB
    omega
  have sorted : ∀ fuel, shownRows fuel s pgdir [name, first, second] =
      showRows s pgdir (max (long (min a b : Nat)) (long (max a b : Nat))) fuel
        (min (long (min a b : Nat)) (long (max a b : Nat))) := by
    intro fuel
    have one : showStart [name, first, second] = long a := strtol_hex hexA
    have two : showEnd [name, first, second] = long b := strtol_hex hexB
    rw [shownRows_eq, one, two]
    rcases Nat.le_total a b with less | more
    · rw [min_eq_left less, max_eq_right less]
    · rw [min_eq_right more, max_eq_left more, max_comm, min_comm]
  constructor
  · rintro ⟨fuel,rows,_,run,right⟩
    rw [sorted] at run
    have half := half_of_shown tables ordered word run right
    have same := showRows_unique run (showRows_half tables ordered word half)
    rw [same, range_right_iff ordered word] at right
    exact ⟨half,right⟩
  · rintro ⟨half,full⟩
    have run := showRows_half tables ordered word half
    rw [← sorted] at run
    refine ⟨_, _, ?_, run, (range_right_iff ordered word).mpr full⟩
    unfold monShowmappings
    rw [run]
    rfl

end Shown

/-- A table with a single entry. -/
def oneEntry : Kernel :=
  ⟨8, fun _ => ⟨none, 1⟩, none, fun p i => if p = 1 ∧ i = 0 then 0x2007 else if p = 2 ∧ i = 0 then 0x3003 else 0,
    fun _ => none⟩

theorem oneEntry_tables : TablesInMemory oneEntry 1 := by
  intro d _ here
  by_cases first : d = 0
  · subst first
    decide
  · have zero : pde oneEntry 1 d = 0 := by simp [pde, oneEntry, first]
    rw [zero] at here
    cases here

theorem hexText_zero : HexText "0x0".toList 0 := by
  refine ⟨['0'], by simp, Or.inr rfl, fun c mem => ⟨0, ?_, by decide⟩, rfl, by decide⟩
  rw [List.mem_singleton.mp mem]
  rfl

theorem oneEntry_never (fuel : Nat) :
    shownRows fuel oneEntry 1 ["showmappings", "0x7ffff000", "0x7ffff000"] = .ok none := by
  have one : showStart ["showmappings", "0x7ffff000", "0x7ffff000"] = 0x7ffff000 := by decide
  have two : showEnd ["showmappings", "0x7ffff000", "0x7ffff000"] = 0x7ffff000 := by decide
  rw [shownRows_eq, one, two]
  exact showRows_never oneEntry_tables 0x7ffff000 (by decide) (by decide) (by decide) fuel (by decide) (by decide)
    (by decide)

/-- The last page of the lower half is printed over and over; a page whose table has no entry
    for it is not printed as unmapped. -/
theorem showmappings_goes_wrong :
    (∀ fuel, shownRows fuel oneEntry 1 ["showmappings", "0x7ffff000", "0x7ffff000"] = .ok none) ∧
    shownRows 1 oneEntry 1 ["showmappings", "0x1000", "0x1000"] = .ok (some [.entry 0x1000 0]) ∧
    ¬ ShownRight oneEntry 1 0x1000 0x1000 [.entry 0x1000 0] := by
  refine ⟨oneEntry_never, by decide +kernel, fun right => ?_⟩
  have mark := (right.2 (.entry 0x1000 0) (by simp)).mpr (by decide)
  cases mark

theorem showmappings_right_iff_oneEntry : ∃ fuel rows,
    shownRows fuel oneEntry 1 ["showmappings", "0x0", "0x0"] = .ok (some rows) ∧ ShownRight oneEntry 1 0 0 rows := by
  have right := (showmappings_right_iff oneEntry 1 oneEntry_tables "showmappings" "0x0" "0x0" 0 0 hexText_zero
    hexText_zero).mpr ⟨Or.inr ⟨by decide, by decide⟩, fun k inside here => ?_⟩
  · obtain ⟨fuel,rows,_,run,shown⟩ := right
    exact ⟨fuel,rows,run,shown⟩
  · have zero : k = 0 := by simpa using inside
    subst zero
    decide

end JosPmap
