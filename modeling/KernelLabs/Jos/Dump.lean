import KernelLabs.Jos.BootAlloc
import KernelLabs.Jos.ShowMappings

/-!
The monitor command `dump` (lab-3 `kern/monitor.c`) on a range of virtual addresses. At an
address that is not mapped the loop moves on to the next page boundary, and from there by its
own increment of 4. No file sets `CR4_PSE`, so `PTE_PS` in a directory entry has no meaning.
-/
namespace JosPmap

/-- A printed line: a warning, or the kernel address of a word with its content. -/
inductive DumpLine where
  | unmapped (va : Nat)
  | word (address content : Nat)
  deriving DecidableEq, Repr

def DumpLine.text : DumpLine → List Char
  | .unmapped va => "Warning: Address ".toList ++ hex8 va ++ " is not mapped\n".toList
  | .word address content => hex8 address ++ "\t\t".toList ++ hex8 content ++ "\n".toList

def DumpLine.shown : DumpLine → Option (Nat × Nat)
  | .unmapped _ => none
  | .word address content => some (address, content)

/-- The four bytes from a physical address on; they need not be one word of memory. -/
def Kernel.word (s : Kernel) (pa : Nat) : Nat :=
  let at4 := fun k => s.mem (k / 1024) (k % 1024)
  (at4 (pa / 4) + at4 (pa / 4 + 1) * 2 ^ 32) / 2 ^ (8 * (pa % 4)) % 2 ^ 32

/-- The physical address behind `start`. `p_end` is never used, but its `KADDR` may panic. -/
def dumpLookup (s : Kernel) (kernPgdir stop start : Nat) : Except Panic (Option Nat) := do
  match ← pgdirWalk s kernPgdir start false with
  | (none, _) => return none
  | (some pte, s) =>
    if !present (s.load pte) then return none
    else
      let page ← kaddr s (pteAddr (s.load pte) + start % PGSIZE)
      let _ ← kaddr s (pteAddr (s.load pte) + stop % PGSIZE)
      return some (page * PGSIZE + start % PGSIZE)

/-- One turn of the loop: the line printed and the next value of `start`. -/
def dumpLine (s : Kernel) (kernPgdir stop start : Nat) : Except Panic (DumpLine × Nat) := do
  match ← dumpLookup s kernPgdir stop start with
  | none => return (.unmapped start, (roundup32 start PGSIZE + 4) % 2 ^ 32)
  | some pa => return (.word ((pa + KERNBASE) % 2 ^ 32) (s.word pa), (start + 4) % 2 ^ 32)

/-- The turn for a physical address, which is dereferenced as it is. -/
def dumpPhysical (load : Nat → Nat) (start : Nat) : Except Panic (DumpLine × Nat) :=
  return (.word start (load start), (start + 4) % 2 ^ 32)

/-- The loop up to `stop`, with nothing when it has not ended within the fuel. -/
def dumpLines (turn : Nat → Except Panic (DumpLine × Nat)) (stop : Nat) :
    Nat → Nat → Except Panic (Option (List DumpLine))
  | 0, start => return if start ≤ stop then none else some []
  | fuel + 1, start =>
    if start ≤ stop then do
      let (line, next) ← turn start
      let rest ← dumpLines turn stop fuel next
      return rest.map (line :: ·)
    else return some []

def dumpType (argv : List String) : Char := ((argv.getD 1 "").toList).headD (Char.ofNat 0)
def dumpArg (argv : List String) (i : Nat) : Nat := unsigned (strtol ((argv.getD i "").toList) 16)

/-- `start` and `end` after the swap. -/
def dumpStart (argv : List String) : Nat := min (dumpArg argv 2) (dumpArg argv 3)
def dumpEnd (argv : List String) : Nat := max (dumpArg argv 2) (dumpArg argv 3)

def dumpHeading (argv : List String) : List Char :=
  (if dumpArg argv 2 > dumpArg argv 3 then "Warning: End Address Should be Greater Than Start Address\n".toList
    else []) ++ "Address:\t\tMemory Content:\n".toList

/-- `load` is what a read from a virtual address gives. -/
def monDump (fuel : Nat) (s : Kernel) (kernPgdir : Nat) (load : Nat → Nat) (argv : List String) :
    Except Panic (Option (List Char)) :=
  let print := fun lines : Option (List DumpLine) => lines.map fun lines => dumpHeading argv ++ lines.flatMap DumpLine.text
  if argv.length ≠ 4 then return some "Usage: dump <virtual(V)/physical(P)> <start_address> <end_address>".toList
  else if dumpType argv = 'V' ∨ dumpType argv = 'v' then
    (dumpLines (dumpLine s kernPgdir (dumpEnd argv)) (dumpEnd argv) fuel (dumpStart argv)).map print
  else if dumpType argv = 'P' ∨ dumpType argv = 'p' then
    (dumpLines (dumpPhysical load) (dumpEnd argv) fuel (dumpStart argv)).map print
  else return some (dumpHeading argv ++ "Warning: Invalid Address Type\n".toList)

section Expected

def MappedPage (s : Kernel) (pgdir n : Nat) : Prop := present (pte s pgdir n) = true

instance (s : Kernel) (pgdir n : Nat) : Decidable (MappedPage s pgdir n) :=
  inferInstanceAs (Decidable (present (pte s pgdir n) = true))

/-- The line for a word of a mapped page. -/
def wordAt (s : Kernel) (pgdir va : Nat) : Option (Nat × Nat) :=
  if MappedPage s pgdir (pgnum va) then
    let pa := frame (pte s pgdir (pgnum va)) * PGSIZE + va % PGSIZE
    some ((pa + KERNBASE) % 2 ^ 32, s.word pa)
  else none

def lineAt (s : Kernel) (pgdir va : Nat) : DumpLine :=
  if MappedPage s pgdir (pgnum va) then
    let pa := frame (pte s pgdir (pgnum va)) * PGSIZE + va % PGSIZE
    .word ((pa + KERNBASE) % 2 ^ 32) (s.word pa)
  else .unmapped va

def nextStart (s : Kernel) (pgdir va : Nat) : Nat :=
  if MappedPage s pgdir (pgnum va) then (va + 4) % 2 ^ 32 else (roundup32 va PGSIZE + 4) % 2 ^ 32

/-- `start`, `start + 4`, ... up to `stop`. -/
def wordsUpTo (start stop : Nat) : List Nat := List.range' start ((stop + 4 - start) / 4) 4

def mappedWords (s : Kernel) (pgdir start stop : Nat) : List (Nat × Nat) :=
  (wordsUpTo start stop).filterMap (wordAt s pgdir)

/-- `KADDR` accepts the table of page `n` and, if the page is mapped, its frame. -/
def Readable (s : Kernel) (pgdir n : Nat) : Prop :=
  present (pde s pgdir (n / NPTENTRIES)) = true → frame (pde s pgdir (n / NPTENTRIES)) < s.npages ∧
    (MappedPage s pgdir n → frame (pte s pgdir n) < s.npages)

/-- Every page is readable, but a page of which the range has only the first word, behind an
    unmapped page, is not looked at. -/
def LooksUp (s : Kernel) (pgdir start stop : Nat) : Prop :=
  ∀ n, pgnum start ≤ n → n * PGSIZE ≤ stop →
    (n = pgnum start ∨ n * PGSIZE + 4 ≤ stop ∨ MappedPage s pgdir (n - 1)) → Readable s pgdir n

/-- In the range no mapped page comes right after an unmapped one. -/
def Gapless (s : Kernel) (pgdir start stop : Nat) : Prop :=
  ∀ n, pgnum start ≤ n → (n + 1) * PGSIZE ≤ stop → MappedPage s pgdir (n + 1) → MappedPage s pgdir n

/-- The range leaves out the last word of the address space, and the last page is mapped if more
    than its first word is in the range. -/
def EndsBelow (s : Kernel) (pgdir stop : Nat) : Prop :=
  stop < 2 ^ 32 - 4 ∧ (2 ^ 32 - PGSIZE + 4 ≤ stop → MappedPage s pgdir (2 ^ 20 - 1))

end Expected

section Turn
variable {s : Kernel} {pgdir : Nat}

theorem kaddr_inside (s : Kernel) (entry off : Nat) (small : off < PGSIZE) :
    kaddr s (pteAddr entry + off) = if s.npages ≤ frame entry then .error .kaddrInvalidPa else .ok (frame entry) := by
  have same : pgnum (pteAddr entry + off) = frame entry := by
    simp only [frame, pgnum, pteAddr, PGSIZE] at small ⊢
    omega
  rw [kaddr, same]

/-- The entry that `pgdir_walk` finds, when its table is in memory. -/
theorem walk_slot {va : Nat} (word : va < 2 ^ 32) (here : present (pde s pgdir (pgnum va / NPTENTRIES)) = true) :
    pgdirWalk s pgdir va false = (if s.npages ≤ frame (pde s pgdir (pgnum va / NPTENTRIES)) then
      .error .kaddrInvalidPa
      else .ok (some ⟨frame (pde s pgdir (pgnum va / NPTENTRIES)), ptx va⟩, s)) ∧
    s.load ⟨frame (pde s pgdir (pgnum va / NPTENTRIES)), ptx va⟩ = pte s pgdir (pgnum va) := by
  constructor
  · have table := kaddr_inside s (pde s pgdir (pgnum va / NPTENTRIES)) 0 (by decide)
    rw [Nat.add_zero] at table
    rw [pgnum_slot word] at here table ⊢
    by_cases outside : s.npages ≤ frame (pde s pgdir (pdx va))
    · rw [if_pos outside] at table ⊢
      simp only [pde] at here table
      simp only [pgdirWalk, Kernel.load, here, ↓reduceIte, table]
      rfl
    · rw [if_neg outside] at table ⊢
      simp only [pde] at here table ⊢
      simp only [pgdirWalk, Kernel.load, here, ↓reduceIte, table]
      rfl
  · rw [pte, if_pos here]
    rfl

theorem dumpLookup_absent {va : Nat} (word : va < 2 ^ 32) (stop : Nat)
    (absent : present (pde s pgdir (pgnum va / NPTENTRIES)) = false) :
    dumpLookup s pgdir stop va = .ok none ∧ ¬ MappedPage s pgdir (pgnum va) := by
  constructor
  · rw [pgnum_slot word] at absent
    rw [dumpLookup, pgdirWalk_absent absent]
    rfl
  · rw [MappedPage, pte, absent, if_neg (by simp), not_present_zero]
    simp

theorem dumpLookup_present {va : Nat} (word : va < 2 ^ 32) (stop : Nat)
    (here : present (pde s pgdir (pgnum va / NPTENTRIES)) = true)
    (table : frame (pde s pgdir (pgnum va / NPTENTRIES)) < s.npages) :
    dumpLookup s pgdir stop va =
      if MappedPage s pgdir (pgnum va) then
        if s.npages ≤ frame (pte s pgdir (pgnum va)) then .error .kaddrInvalidPa
        else .ok (some (frame (pte s pgdir (pgnum va)) * PGSIZE + va % PGSIZE))
      else .ok none := by
  obtain ⟨walk,entry⟩ := walk_slot word here
  rw [if_neg (Nat.not_le.mpr table)] at walk
  have first := kaddr_inside s (pte s pgdir (pgnum va)) (va % PGSIZE) (Nat.mod_lt _ (by decide))
  have second := kaddr_inside s (pte s pgdir (pgnum va)) (stop % PGSIZE) (Nat.mod_lt _ (by decide))
  rw [dumpLookup, walk]
  change (if (!present (s.load ⟨frame (pde s pgdir (pgnum va / NPTENTRIES)), ptx va⟩)) = true then _ else _) = _
  rw [entry]
  by_cases mapped : MappedPage s pgdir (pgnum va)
  · have marked : present (pte s pgdir (pgnum va)) = true := mapped
    rw [if_pos mapped, if_neg (by simp [marked]), first, second]
    split <;> rfl
  · have unmarked : present (pte s pgdir (pgnum va)) = false := by simpa [MappedPage] using mapped
    rw [if_neg mapped, if_pos (by simp [unmarked])]
    rfl

theorem dumpLine_readable {va : Nat} (word : va < 2 ^ 32) (stop : Nat) (readable : Readable s pgdir (pgnum va)) :
    dumpLine s pgdir stop va = .ok (lineAt s pgdir va, nextStart s pgdir va) := by
  unfold lineAt nextStart
  cases here : present (pde s pgdir (pgnum va / NPTENTRIES)) with
  | false =>
    obtain ⟨look,unmapped⟩ := dumpLookup_absent word stop here
    rw [dumpLine, look, if_neg unmapped, if_neg unmapped]
    rfl
  | true =>
    obtain ⟨table,small⟩ := readable here
    have look := dumpLookup_present word stop here table
    by_cases mapped : MappedPage s pgdir (pgnum va)
    · rw [if_pos mapped, if_neg (Nat.not_le.mpr (small mapped))] at look
      rw [dumpLine, look, if_pos mapped, if_pos mapped]
      rfl
    · rw [if_neg mapped] at look
      rw [dumpLine, look, if_neg mapped, if_neg mapped]
      rfl

theorem lineAt_shown (va : Nat) : (lineAt s pgdir va).shown = wordAt s pgdir va := by
  unfold lineAt wordAt
  split <;> rfl

theorem dumpLine_unreadable {va : Nat} (word : va < 2 ^ 32) (stop : Nat) (unreadable : ¬ Readable s pgdir (pgnum va)) :
    dumpLine s pgdir stop va = .error .kaddrInvalidPa := by
  unfold Readable at unreadable
  rw [Classical.not_imp] at unreadable
  obtain ⟨here,unreadable⟩ := unreadable
  have look : dumpLookup s pgdir stop va = .error .kaddrInvalidPa := by
    by_cases table : frame (pde s pgdir (pgnum va / NPTENTRIES)) < s.npages
    · have bad : ¬ (MappedPage s pgdir (pgnum va) → frame (pte s pgdir (pgnum va)) < s.npages) :=
        fun small => unreadable ⟨table,small⟩
      rw [Classical.not_imp] at bad
      rw [dumpLookup_present word stop here table, if_pos bad.1, if_pos (Nat.not_lt.mp bad.2)]
    · obtain ⟨walk,_⟩ := walk_slot word here
      rw [if_pos (Nat.not_lt.mp table)] at walk
      rw [dumpLookup, walk]
      rfl
  rw [dumpLine, look]
  rfl

end Turn

section Range
variable {s : Kernel} {pgdir start stop : Nat}

theorem wordsUpTo_cons (ordered : start ≤ stop) : wordsUpTo start stop = start :: wordsUpTo (start + 4) stop := by
  have count : (stop + 4 - start) / 4 = (stop + 4 - (start + 4)) / 4 + 1 := by omega
  unfold wordsUpTo
  rw [count, List.range'_succ]

theorem wordsUpTo_nil (past : stop < start) : wordsUpTo start stop = [] := by
  have none : (stop + 4 - start) / 4 = 0 := by omega
  unfold wordsUpTo
  rw [none]
  rfl

theorem mappedWords_nil (past : stop < start) : mappedWords s pgdir start stop = [] := by
  rw [mappedWords, wordsUpTo_nil past]
  rfl

theorem mappedWords_cons (ordered : start ≤ stop) :
    mappedWords s pgdir start stop = (wordAt s pgdir start).toList ++ mappedWords s pgdir (start + 4) stop := by
  unfold mappedWords
  rw [wordsUpTo_cons ordered, List.filterMap_cons]
  cases wordAt s pgdir start <;> rfl

theorem wordAt_unmapped {va : Nat} (unmapped : ¬ MappedPage s pgdir (pgnum va)) : wordAt s pgdir va = none := by
  rw [wordAt, if_neg unmapped]

theorem wordAt_mapped {va : Nat} (mapped : MappedPage s pgdir (pgnum va)) : ∃ w, wordAt s pgdir va = some w := by
  rw [wordAt, if_pos mapped]
  exact ⟨_,rfl⟩

/-- The words of one unmapped page contribute nothing. -/
theorem mappedWords_skip (count : Nat) (unmapped : ∀ k, k < count → ¬ MappedPage s pgdir (pgnum (start + 4 * k))) :
    mappedWords s pgdir start stop = mappedWords s pgdir (start + 4 * count) stop := by
  induction count generalizing start with
  | zero => rfl
  | succ count ih =>
    have first : ¬ MappedPage s pgdir (pgnum start) := unmapped 0 (by omega)
    have rest : mappedWords s pgdir (start + 4) stop = mappedWords s pgdir (start + 4 + 4 * count) stop := by
      refine ih fun k inside => ?_
      have later := unmapped (k + 1) (by omega)
      rwa [Nat.mul_succ, Nat.add_comm (4 * k), ← Nat.add_assoc] at later
    have target : start + 4 * (count + 1) = start + 4 + 4 * count := by omega
    rw [target, ← rest]
    rcases Nat.lt_or_ge stop start with past | ordered
    · rw [mappedWords_nil past, mappedWords_nil (by omega)]
    · rw [mappedWords_cons ordered, wordAt_unmapped first]
      rfl

/-- The first address of the page after that of `va`. -/
def nextPage (va : Nat) : Nat := (pgnum va + 1) * PGSIZE

/-- Without a wrap the loop goes on with the next word, or skips the rest of an unmapped page
    and the first word of the page after it. -/
theorem nextStart_cases (ends : EndsBelow s pgdir stop) (aligned : start % 4 = 0) (ordered : start ≤ stop) :
    (nextStart s pgdir start = start + 4 ∧ (MappedPage s pgdir (pgnum start) ∨ start % PGSIZE = 0)) ∨
    (nextStart s pgdir start = nextPage start + 4 ∧ ¬ MappedPage s pgdir (pgnum start) ∧ start % PGSIZE ≠ 0) := by
  obtain ⟨below,last⟩ := ends
  unfold nextStart
  by_cases mapped : MappedPage s pgdir (pgnum start)
  · rw [if_pos mapped]
    exact Or.inl ⟨by omega, Or.inl mapped⟩
  · rw [if_neg mapped]
    have short : start ≤ 2 ^ 32 - PGSIZE := by
      by_contra high
      unfold PGSIZE at high last
      have page : pgnum start = 2 ^ 20 - 1 := by
        unfold pgnum PGSIZE
        omega
      exact mapped (page ▸ last (by omega))
    unfold roundup32 nextPage pgnum PGSIZE at *
    by_cases edge : start % 4096 = 0
    · exact Or.inl ⟨by dsimp only; omega, Or.inr edge⟩
    · exact Or.inr ⟨by dsimp only; omega, mapped, edge⟩

theorem nextStart_later (ends : EndsBelow s pgdir stop) (aligned : start % 4 = 0) (ordered : start ≤ stop) :
    start + 4 ≤ nextStart s pgdir start ∧ nextStart s pgdir start % 4 = 0 := by
  rcases nextStart_cases ends aligned ordered with ⟨next,_⟩ | ⟨next,_⟩
  · omega
  · rw [next]
    unfold nextPage pgnum PGSIZE
    omega

/-- Otherwise the loop never gets past `stop`. -/
theorem nextStart_within (endless : ¬ EndsBelow s pgdir stop) (word : stop < 2 ^ 32) (aligned : start % 4 = 0)
    (ordered : start ≤ stop) : nextStart s pgdir start ≤ stop ∧ nextStart s pgdir start % 4 = 0 := by
  have top : 2 ^ 32 - 4 ≤ stop ∨ (2 ^ 32 - PGSIZE + 4 ≤ stop ∧ ¬ MappedPage s pgdir (2 ^ 20 - 1)) := by
    by_contra neither
    rw [not_or, not_and_not_right] at neither
    exact endless ⟨by omega, neither.2⟩
  unfold nextStart
  by_cases mapped : MappedPage s pgdir (pgnum start)
  · rw [if_pos mapped]
    rcases top with above | ⟨above,last⟩
    · omega
    · have page : pgnum start ≠ 2 ^ 20 - 1 := fun same => last (same ▸ mapped)
      unfold pgnum PGSIZE at *
      omega
  · rw [if_neg mapped]
    unfold roundup32 PGSIZE at *
    dsimp only
    omega

/-- The first word of the next page is skipped with the rest of the page. -/
theorem mappedWords_nextPage (aligned : start % 4 = 0) (unmapped : ¬ MappedPage s pgdir (pgnum start)) :
    mappedWords s pgdir start stop =
      (if nextPage start ≤ stop then (wordAt s pgdir (nextPage start)).toList else []) ++
        mappedWords s pgdir (nextPage start + 4) stop := by
  have target : start + 4 * ((nextPage start - start) / 4) = nextPage start := by
    unfold nextPage pgnum PGSIZE at *
    omega
  rw [mappedWords_skip ((nextPage start - start) / 4), target]
  · split
    · rename_i ordered
      rw [mappedWords_cons ordered]
    · rw [mappedWords_nil (by omega), mappedWords_nil (by omega)]
      rfl
  · intro k inside
    have page : pgnum (start + 4 * k) = pgnum start := by
      unfold nextPage pgnum PGSIZE at *
      omega
    rwa [page]

theorem gapless_past (past : stop < start) : Gapless s pgdir start stop := by
  intro n first inside
  unfold pgnum PGSIZE at *
  omega

theorem gapless_word (aligned : start % 4 = 0) (plain : MappedPage s pgdir (pgnum start) ∨ start % PGSIZE = 0) :
    Gapless s pgdir start stop ↔ Gapless s pgdir (start + 4) stop := by
  constructor
  · intro gapless n first
    exact gapless n (by unfold pgnum PGSIZE at *; omega)
  · intro gapless n first inside next
    by_cases same : n = pgnum start ∧ pgnum (start + 4) ≠ pgnum start
    · rcases plain with mapped | edge
      · exact same.1 ▸ mapped
      · unfold pgnum PGSIZE at *
        omega
    · refine gapless n ?_ inside next
      unfold pgnum PGSIZE at *
      omega

theorem gapless_page (unmapped : ¬ MappedPage s pgdir (pgnum start)) : Gapless s pgdir start stop ↔
    (nextPage start ≤ stop → ¬ MappedPage s pgdir (pgnum start + 1)) ∧
      Gapless s pgdir (nextPage start + 4) stop := by
  have page : pgnum (nextPage start + 4) = pgnum start + 1 := by
    unfold nextPage pgnum PGSIZE
    omega
  constructor
  · intro gapless
    refine ⟨fun inside mapped => unmapped (gapless (pgnum start) (Nat.le_refl _) inside mapped), ?_⟩
    intro n first
    exact gapless n (by omega)
  · rintro ⟨gap,later⟩ n first inside mapped
    rcases Nat.eq_or_lt_of_le first with same | further
    · rw [← same] at inside mapped
      exact absurd mapped (gap inside)
    · exact later n (by omega) inside mapped

/-- A page is looked up at the first of its words that the loop comes to. -/
theorem looksUp_step (ends : EndsBelow s pgdir stop) (aligned : start % 4 = 0) (ordered : start ≤ stop) :
    LooksUp s pgdir start stop ↔ Readable s pgdir (pgnum start) ∧
      (nextStart s pgdir start ≤ stop → LooksUp s pgdir (nextStart s pgdir start) stop) := by
  have own : pgnum start * PGSIZE ≤ stop := by
    unfold pgnum PGSIZE
    omega
  rcases nextStart_cases ends aligned ordered with ⟨next,plain⟩ | ⟨next,unmapped,inner⟩
  · rw [next]
    constructor
    · intro looks
      refine ⟨looks _ (Nat.le_refl _) own (Or.inl rfl), fun more n first inside which => ?_⟩
      refine looks n (by unfold pgnum PGSIZE at *; omega) inside ?_
      rcases which with same | two | before
      · by_cases moved : pgnum (start + 4) = pgnum start
        · exact Or.inl (same.trans moved)
        · rcases plain with mapped | edge
          · have previous : n - 1 = pgnum start := by
              unfold pgnum PGSIZE at *
              omega
            exact Or.inr (Or.inr (previous ▸ mapped))
          · unfold pgnum PGSIZE at *
            omega
      · exact Or.inr (Or.inl two)
      · exact Or.inr (Or.inr before)
    · rintro ⟨readable,later⟩ n first inside which
      by_cases same : n = pgnum start
      · exact same ▸ readable
      · have more : start + 4 ≤ stop := by
          unfold pgnum PGSIZE at *
          omega
        refine later more n (by unfold pgnum PGSIZE at *; omega) inside ?_
        rcases which with own | rest
        · exact absurd own same
        · exact Or.inr rest
  · have page : pgnum (nextPage start + 4) = pgnum start + 1 := by
      unfold nextPage pgnum PGSIZE
      omega
    have edge : nextPage start = (pgnum start + 1) * PGSIZE := rfl
    rw [next]
    constructor
    · intro looks
      refine ⟨looks _ (Nat.le_refl _) own (Or.inl rfl), fun more n first inside which => ?_⟩
      refine looks n (by omega) inside ?_
      rcases which with same | rest
      · rw [page] at same
        subst same
        exact Or.inr (Or.inl (edge ▸ more))
      · exact Or.inr rest
    · rintro ⟨readable,later⟩ n first inside which
      by_cases same : n = pgnum start
      · exact same ▸ readable
      · have further : pgnum start + 1 ≤ n := by omega
        have more : nextPage start + 4 ≤ stop := by
          rcases which with own | two | before
          · exact absurd own same
          · have := Nat.mul_le_mul_right PGSIZE further
            omega
          · have apart : n ≠ pgnum start + 1 := by
              rintro rfl
              exact unmapped before
            have beyond := Nat.mul_le_mul_right PGSIZE (show pgnum start + 2 ≤ n by omega)
            have two : (pgnum start + 2) * PGSIZE = nextPage start + PGSIZE := Nat.succ_mul _ _
            have size : 4 ≤ PGSIZE := by decide
            omega
        refine later more n (by omega) inside ?_
        rcases which with own | rest
        · exact absurd own same
        · exact Or.inr rest

end Range

section Loop
variable {s : Kernel} {pgdir stop : Nat}

theorem dumpLines_past {turn : Nat → Except Panic (DumpLine × Nat)} {fuel start : Nat} (past : stop < start) :
    dumpLines turn stop fuel start = .ok (some []) := by
  cases fuel <;> rw [dumpLines, if_neg (Nat.not_le.mpr past)] <;> rfl

/-- What a turn of a loop that ended has done. -/
theorem dumpLines_turn {fuel start : Nat} {lines : List DumpLine} (word : stop < 2 ^ 32) (ordered : start ≤ stop)
    (run : dumpLines (dumpLine s pgdir stop) stop fuel start = .ok (some lines)) :
    Readable s pgdir (pgnum start) ∧ ∃ fuel' rest, fuel = fuel' + 1 ∧ lines = lineAt s pgdir start :: rest ∧
      dumpLines (dumpLine s pgdir stop) stop fuel' (nextStart s pgdir start) = .ok (some rest) := by
  cases fuel with
  | zero =>
    rw [dumpLines, if_pos ordered] at run
    cases run
  | succ fuel =>
    rw [dumpLines, if_pos ordered] at run
    by_cases readable : Readable s pgdir (pgnum start)
    · rw [dumpLine_readable (by omega) stop readable] at run
      obtain ⟨rest,tail,done⟩ := bind_ok (show (dumpLines (dumpLine s pgdir stop) stop fuel
        (nextStart s pgdir start) >>= _) = _ from run)
      cases rest with
      | none => cases done
      | some rest =>
        cases done
        exact ⟨readable, fuel, rest, rfl, rfl, tail⟩
    · rw [dumpLine_unreadable (by omega) stop readable] at run
      cases run

/-- At the top of the address space the loop does not end. -/
theorem dumpLines_never (endless : ¬ EndsBelow s pgdir stop) (word : stop < 2 ^ 32) (fuel : Nat) {start : Nat}
    (aligned : start % 4 = 0) (ordered : start ≤ stop) (lines : List DumpLine) :
    dumpLines (dumpLine s pgdir stop) stop fuel start ≠ .ok (some lines) := by
  induction fuel generalizing start lines with
  | zero =>
    rw [dumpLines, if_pos ordered]
    exact fun run => nomatch run
  | succ fuel ih =>
    intro run
    obtain ⟨_,fuel',rest,same,_,tail⟩ := dumpLines_turn word ordered run
    obtain ⟨within,four⟩ := nextStart_within endless word aligned ordered
    rw [Nat.succ.injEq] at same
    exact ih four within rest (same ▸ tail)

theorem dumpLines_ends (ends : EndsBelow s pgdir stop) (fuel : Nat) {start : Nat} (aligned : start % 4 = 0)
    (looks : start ≤ stop → LooksUp s pgdir start stop) (enough : stop + 4 - start ≤ 4 * fuel + 3) :
    ∃ lines, dumpLines (dumpLine s pgdir stop) stop fuel start = .ok (some lines) := by
  induction fuel generalizing start with
  | zero => exact ⟨[], dumpLines_past (by omega)⟩
  | succ fuel ih =>
    rcases Nat.lt_or_ge stop start with past | ordered
    · exact ⟨[], dumpLines_past past⟩
    · have word : start < 2 ^ 32 := by
        have := ends.1
        omega
      obtain ⟨readable,later⟩ := (looksUp_step ends aligned ordered).mp (looks ordered)
      obtain ⟨further,four⟩ := nextStart_later ends aligned ordered
      obtain ⟨rest,tail⟩ := ih four later (by omega)
      refine ⟨lineAt s pgdir start :: rest, ?_⟩
      rw [dumpLines, if_pos ordered, dumpLine_readable word stop readable]
      change (dumpLines (dumpLine s pgdir stop) stop fuel (nextStart s pgdir start) >>= _) = _
      rw [tail]
      rfl

/-- A loop that ended has looked up every page it had to, printed no more than it should, and
    printed all of it exactly when there was no gap. -/
theorem dumpLines_spec (ends : EndsBelow s pgdir stop) (fuel : Nat) {start : Nat} (aligned : start % 4 = 0)
    {lines : List DumpLine} (run : dumpLines (dumpLine s pgdir stop) stop fuel start = .ok (some lines)) :
    (start ≤ stop → LooksUp s pgdir start stop) ∧
    (lines.filterMap DumpLine.shown).length ≤ (mappedWords s pgdir start stop).length ∧
    (lines.filterMap DumpLine.shown = mappedWords s pgdir start stop ↔ Gapless s pgdir start stop) := by
  induction fuel generalizing start lines with
  | zero =>
    rcases Nat.lt_or_ge stop start with past | ordered
    · rw [dumpLines_past past] at run
      cases run
      rw [mappedWords_nil past]
      exact ⟨fun ordered => absurd ordered (by omega), Nat.le_refl _, fun _ => gapless_past past, fun _ => rfl⟩
    · rw [dumpLines, if_pos ordered] at run
      cases run
  | succ fuel ih =>
    rcases Nat.lt_or_ge stop start with past | ordered
    · rw [dumpLines_past past] at run
      cases run
      rw [mappedWords_nil past]
      exact ⟨fun ordered => absurd ordered (by omega), Nat.le_refl _, fun _ => gapless_past past, fun _ => rfl⟩
    · have word : stop < 2 ^ 32 := by
        have := ends.1
        omega
      obtain ⟨readable,fuel',rest,same,rfl,tail⟩ := dumpLines_turn word ordered run
      rw [Nat.succ.injEq] at same
      rw [← same] at tail
      obtain ⟨_,four⟩ := nextStart_later ends aligned ordered
      obtain ⟨looks,shorter,exact_iff⟩ := ih four tail
      refine ⟨fun _ => (looksUp_step ends aligned ordered).mpr ⟨readable,looks⟩, ?_⟩
      have head : (lineAt s pgdir start :: rest).filterMap DumpLine.shown =
          (wordAt s pgdir start).toList ++ rest.filterMap DumpLine.shown := by
        rw [List.filterMap_cons, lineAt_shown]
        cases wordAt s pgdir start <;> rfl
      rw [head]
      rcases nextStart_cases ends aligned ordered with ⟨next,plain⟩ | ⟨next,unmapped,inner⟩
      · rw [next] at shorter exact_iff
        rw [mappedWords_cons ordered, gapless_word aligned plain, List.append_cancel_left_eq]
        simp only [List.length_append]
        exact ⟨by omega, exact_iff⟩
      · rw [next] at shorter exact_iff
        have page : pgnum (nextPage start) = pgnum start + 1 := by
          unfold nextPage pgnum PGSIZE
          omega
        rw [mappedWords_nextPage aligned unmapped, gapless_page unmapped, wordAt_unmapped unmapped]
        simp only [Option.toList_none, List.nil_append, List.length_append]
        refine ⟨by omega, ?_⟩
        by_cases hidden : nextPage start ≤ stop ∧ MappedPage s pgdir (pgnum start + 1)
        · obtain ⟨w,here⟩ := wordAt_mapped (page ▸ hidden.2)
          rw [if_pos hidden.1, here]
          constructor
          · intro equal
            have longer := congrArg List.length equal
            simp only [Option.toList_some, List.length_append, List.length_singleton] at longer
            omega
          · exact fun gapless => absurd hidden.2 (gapless.1 hidden.1)
        · have nothing : (if nextPage start ≤ stop then (wordAt s pgdir (nextPage start)).toList else []) = [] := by
            split
            · rename_i inside
              rw [wordAt_unmapped (fun mapped => hidden ⟨inside, page ▸ mapped⟩)]
              rfl
            · rfl
          rw [nothing, List.nil_append, exact_iff]
          exact ⟨fun gapless => ⟨fun inside mapped => hidden ⟨inside,mapped⟩, gapless⟩, fun both => both.2⟩

end Loop

/-- The command on `start` and `stop` ends and prints the words of the mapped pages of the range,
    each once and in order. -/
def DumpsRight (s : Kernel) (pgdir start stop : Nat) : Prop :=
  ∃ fuel lines, dumpLines (dumpLine s pgdir stop) stop fuel start = .ok (some lines) ∧
    lines.filterMap DumpLine.shown = mappedWords s pgdir start stop

theorem dumps_right_iff (s : Kernel) (pgdir : Nat) {start stop : Nat} (aligned : start % 4 = 0) (ordered : start ≤ stop)
    (word : stop < 2 ^ 32) : DumpsRight s pgdir start stop ↔
      EndsBelow s pgdir stop ∧ LooksUp s pgdir start stop ∧ Gapless s pgdir start stop := by
  constructor
  · rintro ⟨fuel,lines,run,right⟩
    by_cases ends : EndsBelow s pgdir stop
    · obtain ⟨looks,_,exact_iff⟩ := dumpLines_spec ends fuel aligned run
      exact ⟨ends, looks ordered, exact_iff.mp right⟩
    · exact absurd run (dumpLines_never ends word fuel aligned ordered lines)
  · rintro ⟨ends,looks,gapless⟩
    obtain ⟨lines,run⟩ := dumpLines_ends ends (stop + 4) aligned (fun _ => looks) (by omega)
    obtain ⟨_,_,exact_iff⟩ := dumpLines_spec ends _ aligned run
    exact ⟨_, lines, run, exact_iff.mpr gapless⟩

theorem dumpArg_hex {text : String} {a : Nat} (hex : HexText text.toList a) : unsigned (strtol text.toList 16) = a := by
  obtain ⟨_,_,_,_,_,word⟩ := id hex
  rw [strtol_hex hex, long_of_word word]
  unfold unsigned
  split <;> omega

/-- `dump V` of two addresses in hexadecimal ends and prints what it should exactly when the range
    ends below the last word of the address space, `KADDR` accepts every page looked up, and no
    mapped page of the range follows an unmapped one. -/
theorem dump_right_iff (s : Kernel) (pgdir : Nat) (load : Nat → Nat) (name type first second : String) (start stop : Nat)
    (virtual : type.toList.head? = some 'V' ∨ type.toList.head? = some 'v') (hexStart : HexText first.toList start)
    (hexStop : HexText second.toList stop) (aligned : start % 4 = 0) (ordered : start ≤ stop) :
    (∃ fuel lines, dumpLines (dumpLine s pgdir stop) stop fuel start = .ok (some lines) ∧
      monDump fuel s pgdir load [name, type, first, second] =
        .ok (some (dumpHeading [name, type, first, second] ++ lines.flatMap DumpLine.text)) ∧
      lines.filterMap DumpLine.shown = mappedWords s pgdir start stop) ↔
    EndsBelow s pgdir stop ∧ LooksUp s pgdir start stop ∧ Gapless s pgdir start stop := by
  have word : stop < 2 ^ 32 := hexStop.choose_spec.2.2.2.2
  have one : dumpArg [name, type, first, second] 2 = start := dumpArg_hex hexStart
  have two : dumpArg [name, type, first, second] 3 = stop := dumpArg_hex hexStop
  have low : dumpStart [name, type, first, second] = start := by
    rw [dumpStart, one, two, min_eq_left ordered]
  have high : dumpEnd [name, type, first, second] = stop := by
    rw [dumpEnd, one, two, max_eq_right ordered]
  have letter : dumpType [name, type, first, second] = 'V' ∨ dumpType [name, type, first, second] = 'v' := by
    change type.toList.headD (Char.ofNat 0) = 'V' ∨ type.toList.headD (Char.ofNat 0) = 'v'
    rw [List.headD_eq_head?_getD]
    rcases virtual with upper | lower
    · exact Or.inl (by rw [upper]; rfl)
    · exact Or.inr (by rw [lower]; rfl)
  rw [← dumps_right_iff s pgdir aligned ordered word]
  constructor
  · rintro ⟨fuel,lines,run,_,right⟩
    exact ⟨fuel,lines,run,right⟩
  · rintro ⟨fuel,lines,run,right⟩
    refine ⟨fuel, lines, run, ?_, right⟩
    rw [monDump, if_neg (by simp), if_pos letter, low, high, run]
    rfl

/-- A table in which the second page is mapped and the first is not. -/
def secondPage : Kernel :=
  ⟨8, fun _ => ⟨none, 1⟩, none, fun p i => if p = 1 ∧ i = 0 then 0x2007 else if p = 2 ∧ i = 1 then 0x3003 else
    if p = 3 then i + 7 else 0, fun _ => none⟩

/-- The first word of the second page is left out, and a range up to the last byte of the address
    space is never done. -/
theorem dump_goes_wrong :
    dumpLines (dumpLine secondPage 1 0x1004) 0x1004 3 0 =
      .ok (some [.unmapped 0, .unmapped 4, .word 0xf0003004 8]) ∧
    mappedWords secondPage 1 0 0x1004 = [(0xf0003000, 7), (0xf0003004, 8)] ∧
    ¬ DumpsRight secondPage 1 0 0x1004 ∧ ¬ DumpsRight secondPage 1 0 0xffffffff := by
  refine ⟨by decide, by decide +kernel, fun right => ?_, fun right => ?_⟩
  · obtain ⟨_,_,gapless⟩ := (dumps_right_iff secondPage 1 (by decide) (by decide) (by decide)).mp right
    have mapped := gapless 0 (by decide) (by decide) (by decide)
    exact absurd mapped (by decide)
  · obtain ⟨ends,_,_⟩ := (dumps_right_iff secondPage 1 (by decide) (by decide) (by decide)).mp right
    exact absurd ends.1 (by decide)

theorem hexText_eight : HexText "0x8".toList 8 := by
  refine ⟨['8'], by simp, Or.inr rfl, fun c mem => ⟨8, ?_, by decide⟩, rfl, by decide⟩
  rw [List.mem_singleton.mp mem]
  rfl

theorem dump_right_iff_oneEntry : ∃ (fuel : Nat) (lines : List DumpLine),
    monDump fuel oneEntry 1 (fun _ => 0) ["dump", "V", "0x0", "0x8"] =
      .ok (some (dumpHeading ["dump", "V", "0x0", "0x8"] ++ lines.flatMap DumpLine.text)) ∧
    lines.filterMap DumpLine.shown = mappedWords oneEntry 1 0 8 := by
  have ends : EndsBelow oneEntry 1 8 := ⟨by decide, fun top => absurd top (by decide)⟩
  have looks : LooksUp oneEntry 1 0 8 := by
    intro n _ inside _
    obtain rfl : n = 0 := by
      unfold PGSIZE at inside
      omega
    exact fun _ => ⟨by decide, fun _ => by decide⟩
  have gapless : Gapless oneEntry 1 0 8 := by
    intro n _ inside
    unfold PGSIZE at inside
    omega
  obtain ⟨fuel,lines,_,text,right⟩ := (dump_right_iff oneEntry 1 (fun _ => 0) "dump" "V" "0x0" "0x8" 0 8 (by decide)
    hexText_zero hexText_eight (by decide) (by decide)).mpr ⟨ends,looks,gapless⟩
  exact ⟨fuel,lines,text,right⟩

end JosPmap
