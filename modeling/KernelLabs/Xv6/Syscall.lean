import Mathlib.Data.List.Basic

/-!
The arguments of a system call, fetched from the user's memory (assignment-3 `syscall.c`).
`uint`, `int` and pointers are 32-bit words. A fetch notes the addresses it reads.
-/
namespace Xv6Syscall

def KERNBASE : Nat := 0x80000000

/-- The process that makes the call; its memory ends below the kernel. -/
structure Proc where
  sz : BitVec 32
  esp : BitVec 32
  mem : BitVec 32 → BitVec 8
  user : sz.toNat < KERNBASE

abbrev FetchM := StateM (List (BitVec 32))

section Fetching
variable (p : Proc)

def load (a : BitVec 32) : FetchM (BitVec 8) := do
  modify (a :: ·)
  return p.mem a

def loadInt (a : BitVec 32) : FetchM (BitVec 32) := do
  let b0 ← load p a
  let b1 ← load p (a + 1)
  let b2 ← load p (a + 2)
  let b3 ← load p (a + 3)
  return b3 ++ b2 ++ b1 ++ b0

/-- `none` is the result -1. -/
def fetchint (addr : BitVec 32) : FetchM (Option (BitVec 32)) :=
  if addr ≥ p.sz ∨ addr + 4 > p.sz then return none
  else some <$> loadInt p addr

/-- The loop of `fetchstr` from `s` on, with the result of the call. -/
def strLoop (pp : BitVec 32) : Nat → BitVec 32 → FetchM (Option (BitVec 32))
  | 0, _ => return none
  | fuel + 1, s =>
    if s < p.sz then do
      if (← load p s) = 0 then return some (s - pp)
      else strLoop pp fuel (s + 1)
    else return none

def fetchstr (addr : BitVec 32) : FetchM (Option (BitVec 32)) :=
  if addr ≥ p.sz then return none
  else strLoop p addr p.sz.toNat addr

def argint (n : BitVec 32) : FetchM (Option (BitVec 32)) := fetchint p (p.esp + 4 + 4 * n)

/-- The pointer that goes to `*pp`. -/
def argptr (n size : BitVec 32) : FetchM (Option (BitVec 32)) := do
  match ← argint p n with
  | none => return none
  | some i => return if size.toInt < 0 ∨ i ≥ p.sz ∨ i + size > p.sz then none else some i

/-- The pointer that goes to `*pp`, with the length. -/
def argstr (n : BitVec 32) : FetchM (Option (BitVec 32 × BitVec 32)) := do
  match ← argint p n with
  | none => return none
  | some addr => return (← fetchstr p addr).map fun len => (addr, len)

end Fetching

section Ranges
variable (p : Proc)

/-- The `n` bytes from `a` on are in the memory of the process, without a wrap. -/
def Within (a : BitVec 32) (n : Nat) : Prop := ∀ k < n, a.toNat + k < p.sz.toNat

/-- The little-endian word at `a`. -/
def word (a : BitVec 32) : BitVec 32 := p.mem (a + 3) ++ p.mem (a + 2) ++ p.mem (a + 1) ++ p.mem a

/-- A string of length `len` at `a`, with its NUL inside the memory. -/
structure StringAt (a len : BitVec 32) : Prop where
  within : Within p a (len.toNat + 1)
  chars : ∀ k < len.toNat, p.mem (a + BitVec.ofNat 32 k) ≠ 0
  nul : p.mem (a + len) = 0

end Ranges

/-- The result of a fetch. -/
def result {α : Type} (m : FetchM α) : α := (m []).1

/-- The addresses that a fetch reads. -/
def reads {α : Type} (m : FetchM α) : List (BitVec 32) := (m []).2

section Fetches
variable {p : Proc} {α β : Type} {a s len pp : BitVec 32} {fuel : Nat}

/-- The fetch returns this, and reads the memory of the process only. -/
def Fetches (p : Proc) (m : FetchM α) (r : α) : Prop :=
  ∃ seen : List (BitVec 32), (∀ a ∈ seen, a < p.sz) ∧ ∀ before, m before = (r, seen ++ before)

theorem fetches_result {m : FetchM α} {r : α} (fetches : Fetches p m r) : result m = r ∧ ∀ a ∈ reads m, a < p.sz := by
  obtain ⟨seen,inside,runs⟩ := fetches
  unfold result reads
  rw [runs, List.append_nil]
  exact ⟨rfl,inside⟩

theorem fetches_pure (r : α) : Fetches p (pure r) r := ⟨[], fun _ none => (by cases none), fun _ => rfl⟩

theorem fetches_bind {m : FetchM α} {f : α → FetchM β} {r : α} {r' : β} (first : Fetches p m r)
    (next : Fetches p (f r) r') : Fetches p (m >>= f) r' := by
  obtain ⟨seen,inside,runs⟩ := first
  obtain ⟨later,inside',runs'⟩ := next
  refine ⟨later ++ seen, fun a member => (List.mem_append.mp member).elim (inside' a) (inside a), fun before => ?_⟩
  change (f (m before).1) (m before).2 = _
  rw [runs]
  exact (runs' _).trans (by rw [List.append_assoc])

theorem fetches_map {m : FetchM α} {r : α} (f : α → β) (first : Fetches p m r) : Fetches p (f <$> m) (f r) := by
  obtain ⟨seen,inside,runs⟩ := first
  refine ⟨seen, inside, fun before => ?_⟩
  change (f (m before).1, (m before).2) = _
  rw [runs]

theorem fetches_load (inside : a < p.sz) : Fetches p (load p a) (p.mem a) := by
  refine ⟨[a], fun b member => ?_, fun _ => rfl⟩
  rw [List.mem_singleton.mp member]
  exact inside

theorem within_four : Within p a 4 ↔ ¬ (a ≥ p.sz ∨ a + 4 > p.sz) := by
  have user := p.user
  unfold KERNBASE at user
  rw [not_or]
  constructor
  · intro within
    have last := within 3 (by decide)
    bv_omega
  · rintro ⟨low,high⟩ k small
    bv_omega

theorem fetchint_within (within : Within p a 4) : Fetches p (fetchint p a) (some (word p a)) := by
  obtain ⟨low,high⟩ := not_or.mp (within_four.mp within)
  have user := p.user
  unfold KERNBASE at user
  unfold fetchint
  rw [if_neg (within_four.mp within)]
  refine fetches_map some ?_
  unfold loadInt
  refine fetches_bind (fetches_load (by bv_omega)) ?_
  refine fetches_bind (fetches_load (by bv_omega)) ?_
  refine fetches_bind (fetches_load (by bv_omega)) ?_
  exact fetches_bind (fetches_load (by bv_omega)) (fetches_pure _)

theorem fetchint_outside (outside : ¬ Within p a 4) : Fetches p (fetchint p a) none := by
  unfold fetchint
  rw [if_pos (not_not.mp fun inside => outside (within_four.mpr inside))]
  exact fetches_pure none

/-- There is one string at an address at most. -/
theorem StringAt.unique {len' : BitVec 32} (first : StringAt p a len) (second : StringAt p a len') : len = len' := by
  rcases Nat.lt_trichotomy len.toNat len'.toNat with less | same | more
  · have char := second.chars len.toNat less
    rw [BitVec.ofNat_toNat, BitVec.setWidth_eq] at char
    exact absurd first.nul char
  · exact BitVec.eq_of_toNat_eq same
  · have char := first.chars len'.toNat more
    rw [BitVec.ofNat_toNat, BitVec.setWidth_eq] at char
    exact absurd second.nul char

theorem StringAt.start (here : StringAt p a len) : a < p.sz := here.within 0 (Nat.succ_pos _)

/-- The string goes on after a character. -/
theorem stringAt_next (inside : a < p.sz) (some : p.mem a ≠ 0) : StringAt p a len ↔ len ≠ 0 ∧ StringAt p (a + 1) (len - 1) := by
  have user := p.user
  unfold KERNBASE at user
  constructor
  · intro here
    have pos : len ≠ 0 := by
      rintro rfl
      exact some (by simpa using here.nul)
    have last := here.within len.toNat (Nat.lt_succ_self _)
    refine ⟨pos, fun k small => ?_, fun k small => ?_, ?_⟩
    · bv_omega
    · have char := here.chars (k + 1) (by bv_omega)
      rwa [show a + BitVec.ofNat 32 (k + 1) = a + 1 + BitVec.ofNat 32 k by bv_omega] at char
    · rw [show a + 1 + (len - 1) = a + len by bv_omega]
      exact here.nul
  · rintro ⟨pos,rest⟩
    have last := rest.within (len - 1).toNat (Nat.lt_succ_self _)
    refine ⟨fun k small => ?_, fun k small => ?_, ?_⟩
    · bv_omega
    · by_cases first : k = 0
      · subst first
        simpa using some
      · have char := rest.chars (k - 1) (by bv_omega)
        rwa [show a + 1 + BitVec.ofNat 32 (k - 1) = a + BitVec.ofNat 32 k by bv_omega] at char
    · have nul := rest.nul
      rwa [show a + 1 + (len - 1) = a + len by bv_omega] at nul

theorem strLoop_found (found : StringAt p s len) (enough : len.toNat < fuel) :
    Fetches p (strLoop p pp fuel s) (some (s + len - pp)) := by
  induction fuel generalizing s len with
  | zero => exact absurd enough (Nat.not_lt_zero _)
  | succ fuel ih =>
    unfold strLoop
    rw [if_pos found.start]
    refine fetches_bind (fetches_load found.start) ?_
    by_cases nul : p.mem s = 0
    · have last : StringAt p s 0 := ⟨fun k small => (by have := found.within 0 (Nat.succ_pos _); bv_omega),
        fun k small => (by cases small), by simpa using nul⟩
      rw [if_pos nul, found.unique last, show s + 0 - pp = s - pp by bv_omega]
      exact fetches_pure _
    · obtain ⟨pos,rest⟩ := (stringAt_next found.start nul).mp found
      rw [if_neg nul, show s + len - pp = s + 1 + (len - 1) - pp by bv_omega]
      exact ih rest (by bv_omega)

theorem strLoop_missing (missing : ∀ len, ¬ StringAt p s len) : Fetches p (strLoop p pp fuel s) none := by
  induction fuel generalizing s with
  | zero => exact fetches_pure none
  | succ fuel ih =>
    unfold strLoop
    by_cases inside : s < p.sz
    · rw [if_pos inside]
      refine fetches_bind (fetches_load inside) ?_
      by_cases nul : p.mem s = 0
      · refine absurd ⟨fun k small => ?_, fun k small => ?_, ?_⟩ (missing 0)
        · bv_omega
        · cases small
        · simpa using nul
      · rw [if_neg nul]
        refine ih fun len rest => missing (len + 1) ((stringAt_next inside nul).mpr ⟨?_, ?_⟩)
        · have last := rest.within len.toNat (Nat.lt_succ_self _)
          have user := p.user
          unfold KERNBASE at user
          bv_omega
        · rwa [BitVec.add_sub_cancel]
    · rw [if_neg inside]
      exact fetches_pure none

theorem fetchstr_found (found : StringAt p a len) : Fetches p (fetchstr p a) (some len) := by
  have inside := found.start
  have last := found.within len.toNat (Nat.lt_succ_self _)
  have loop : Fetches p (strLoop p a p.sz.toNat a) (some (a + len - a)) := strLoop_found found (by omega)
  unfold fetchstr
  rw [if_neg (by bv_omega)]
  rwa [show a + len - a = len by bv_omega] at loop

theorem fetchstr_missing (missing : ∀ len, ¬ StringAt p a len) : Fetches p (fetchstr p a) none := by
  unfold fetchstr
  split
  · exact fetches_pure none
  · exact strLoop_missing missing

/-- Where `argint` reads argument `n`. -/
def place (p : Proc) (n : BitVec 32) : BitVec 32 := p.esp + 4 + 4 * n

theorem fetchint_fetches (a : BitVec 32) : Fetches p (fetchint p a) (result (fetchint p a)) := by
  by_cases within : Within p a 4
  · have fetches := fetchint_within within
    rwa [(fetches_result fetches).1]
  · have fetches := fetchint_outside within
    rwa [(fetches_result fetches).1]

theorem fetchint_iff {v : BitVec 32} : result (fetchint p a) = some v ↔ Within p a 4 ∧ v = word p a := by
  by_cases within : Within p a 4
  · rw [(fetches_result (fetchint_within within)).1, Option.some.injEq]
    exact ⟨fun same => ⟨within,same.symm⟩, fun both => both.2.symm⟩
  · rw [(fetches_result (fetchint_outside within)).1]
    exact ⟨fun none => (by cases none), fun both => absurd both.1 within⟩

theorem fetchstr_iff : result (fetchstr p a) = some len ↔ StringAt p a len := by
  constructor
  · intro found
    by_contra other
    have missing : ∀ len', ¬ StringAt p a len' := by
      intro len' here
      rw [(fetches_result (fetchstr_found here)).1, Option.some.injEq] at found
      exact other (found ▸ here)
    rw [(fetches_result (fetchstr_missing missing)).1] at found
    cases found
  · exact fun here => (fetches_result (fetchstr_found here)).1

theorem fetchstr_fetches (a : BitVec 32) : Fetches p (fetchstr p a) (result (fetchstr p a)) := by
  by_cases found : ∃ len, StringAt p a len
  · obtain ⟨len,here⟩ := found
    have fetches := fetchstr_found here
    rwa [(fetches_result fetches).1]
  · have fetches := fetchstr_missing (not_exists.mp found)
    rwa [(fetches_result fetches).1]

theorem argptr_fetches (n size : BitVec 32) : Fetches p (argptr p n size)
    ((result (argint p n)).bind fun i => if size.toInt < 0 ∨ i ≥ p.sz ∨ i + size > p.sz then none else some i) := by
  refine fetches_bind (fetchint_fetches _) ?_
  unfold argint
  cases result (fetchint p (p.esp + 4 + 4 * n)) with
  | none => exact fetches_pure none
  | some i => exact fetches_pure _

theorem argstr_fetches (n : BitVec 32) : Fetches p (argstr p n)
    ((result (argint p n)).bind fun addr => (result (fetchstr p addr)).map fun len => (addr, len)) := by
  refine fetches_bind (fetchint_fetches _) ?_
  unfold argint
  cases result (fetchint p (p.esp + 4 + 4 * n)) with
  | none => exact fetches_pure none
  | some addr => exact fetches_bind (fetchstr_fetches addr) (fetches_pure _)

/-- The test of `argptr`. -/
theorem within_size {i size : BitVec 32} : (¬ (size.toInt < 0 ∨ i ≥ p.sz ∨ i + size > p.sz)) ↔
    i < p.sz ∧ Within p i size.toNat := by
  have user := p.user
  unfold KERNBASE at user
  rw [BitVec.toInt_neg_iff, not_or, not_or]
  constructor
  · rintro ⟨positive,low,high⟩
    refine ⟨by bv_omega, fun k small => ?_⟩
    bv_omega
  · rintro ⟨low,within⟩
    by_cases none : size.toNat = 0
    · refine ⟨by omega, by bv_omega, by bv_omega⟩
    · have last := within (size.toNat - 1) (by omega)
      refine ⟨by omega, by bv_omega, by bv_omega⟩

end Fetches

/-- The checks of one process: what each function accepts and returns, and that all reads are
    inside the process. -/
structure Checked (p : Proc) : Prop where
  int_word : ∀ addr v, result (fetchint p addr) = some v ↔ Within p addr 4 ∧ v = word p addr
  arg_word : ∀ n v, result (argint p n) = some v ↔ Within p (place p n) 4 ∧ v = word p (place p n)
  ptr_within : ∀ n size i, result (argptr p n size) = some i → result (argint p n) = some i ∧ Within p i size.toNat
  ptr_accepts : ∀ n size i, result (argint p n) = some i → size ≠ 0 → Within p i size.toNat →
    result (argptr p n size) = some i
  str_at : ∀ addr len, result (fetchstr p addr) = some len ↔ StringAt p addr len
  arg_str : ∀ n addr len, result (argstr p n) = some (addr, len) ↔ result (argint p n) = some addr ∧ StringAt p addr len
  int_reads : ∀ addr, ∀ a ∈ reads (fetchint p addr), a < p.sz
  arg_reads : ∀ n, ∀ a ∈ reads (argint p n), a < p.sz
  ptr_reads : ∀ n size, ∀ a ∈ reads (argptr p n size), a < p.sz
  str_reads : ∀ addr, ∀ a ∈ reads (fetchstr p addr), a < p.sz
  arg_str_reads : ∀ n, ∀ a ∈ reads (argstr p n), a < p.sz

theorem arguments_checked (p : Proc) : Checked p where
  int_word _ _ := fetchint_iff
  arg_word _ _ := fetchint_iff
  ptr_within n size i found := by
    rw [(fetches_result (argptr_fetches n size)).1, Option.bind_eq_some_iff] at found
    obtain ⟨j,fetched,test⟩ := found
    split at test
    · cases test
    · rename_i passed
      cases test
      exact ⟨fetched, (within_size.mp passed).2⟩
  ptr_accepts n size i fetched some within := by
    have start : i < p.sz := by
      have first := within 0 (by bv_omega)
      bv_omega
    rw [(fetches_result (argptr_fetches n size)).1, fetched, Option.bind_some, if_neg (within_size.mpr ⟨start,within⟩)]
  str_at _ _ := fetchstr_iff
  arg_str n addr len := by
    rw [(fetches_result (argstr_fetches n)).1, Option.bind_eq_some_iff]
    constructor
    · rintro ⟨start,fetched,found⟩
      obtain ⟨length,string,same⟩ := Option.map_eq_some_iff.mp found
      cases same
      exact ⟨fetched, fetchstr_iff.mp string⟩
    · rintro ⟨fetched,string⟩
      exact ⟨addr, fetched, Option.map_eq_some_iff.mpr ⟨len, fetchstr_iff.mpr string, rfl⟩⟩
  int_reads addr := (fetches_result (fetchint_fetches addr)).2
  arg_reads _ := (fetches_result (fetchint_fetches _)).2
  ptr_reads n size := (fetches_result (argptr_fetches n size)).2
  str_reads addr := (fetches_result (fetchstr_fetches addr)).2
  arg_str_reads n := (fetches_result (argstr_fetches n)).2

end Xv6Syscall
