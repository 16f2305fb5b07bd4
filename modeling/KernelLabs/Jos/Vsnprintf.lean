import KernelLabs.Jos.Formats
import KernelLabs.Lib.BoundedWriter

/-!
Formatted output into a buffer in JOS (lab-1 `printfmt.c`): `vsnprintf` counts every character that is
put out and stores the ones that have room before the last byte. The strings and the buffer lie apart.
-/
namespace JosPrintfmt
open CInt BoundedWriter Numerals

structure Sprintbuf where
  buf : Int
  ebuf : Int
  cnt : Int

def sprintputch (s : Memory (BitVec 8) × Sprintbuf) (ch : Int) : Memory (BitVec 8) × Sprintbuf :=
  let b := { s.2 with cnt := int32 (s.2.cnt + 1) }
  if b.buf < b.ebuf then (Function.update s.1 b.buf (BitVec.ofInt 8 ch), { b with buf := b.buf + 1 }) else (s.1, b)

/-- `-E_INVAL` -/
def invalid : Int := -3

/-- `vsnprintf(buf, n, fmt, ap)`: what it returns, and the memory. -/
def vsnprintf (fuel : Nat) (mem : Memory (BitVec 8)) (buf n : Int) (fmt : List Int) (ap : List Arg) :
    Option (Int × Memory (BitVec 8)) :=
  if buf = 0 ∨ n < 1 then some (invalid, mem)
  else do
    let out ← vprintfmt fuel [] fmt ap
    let s := out.foldl sprintputch (mem, ⟨buf, buf + n - 1, 0⟩)
    return (s.2.cnt, Function.update s.1 s.2.buf 0)

section Buffer
variable {fuel : Nat} {mem : Memory (BitVec 8)} {buf n : Int} {fmt out : List Int} {ap : List Arg}

theorem sprintputch_store (mem : Memory (BitVec 8)) (buf ebuf cnt ch : Int) : sprintputch (mem, ⟨buf, ebuf, cnt⟩) ch =
    ((store ebuf (mem, buf) (BitVec.ofInt 8 ch)).1, ⟨(store ebuf (mem, buf) (BitVec.ofInt 8 ch)).2, ebuf, int32 (cnt + 1)⟩) := by
  unfold sprintputch store
  dsimp only
  split <;> rfl

/-- Every character is counted, with or without room. -/
theorem sprintputch_run (out : List Int) (mem : Memory (BitVec 8)) (buf ebuf c : Int) :
    out.foldl sprintputch (mem, ⟨buf, ebuf, int32 c⟩) =
      (((out.map (BitVec.ofInt 8)).foldl (store ebuf) (mem, buf)).1,
        ⟨((out.map (BitVec.ofInt 8)).foldl (store ebuf) (mem, buf)).2, ebuf, int32 (c + out.length)⟩) := by
  induction out generalizing mem buf c with
  | nil => simp
  | cons ch out ih =>
    have count : c + ((ch :: out).length : Int) = c + 1 + out.length := by
      rw [List.length_cons]
      omega
    rw [List.foldl_cons, sprintputch_store, int32_add, ih, List.map_cons, List.foldl_cons, count]

theorem vsnprintf_written (given : buf ≠ 0) (room : 1 ≤ n) (formatted : vprintfmt fuel [] fmt ap = some out) :
    vsnprintf fuel mem buf n fmt ap =
      some (int32 out.length, written mem buf ((out.map (BitVec.ofInt 8)).take (n - 1).toNat ++ [0])) := by
  have start : (0 : Int) = int32 0 := rfl
  have limit : buf + n - 1 - buf = n - 1 := by omega
  unfold vsnprintf
  rw [if_neg (by omega), formatted, start]
  simp only [Option.bind_eq_bind, Option.bind_some]
  rw [sprintputch_run, stores_written (by omega), limit]
  dsimp only
  rw [written_end, Int.zero_add]
  rfl

theorem int32_length (l : List Int) : int32 l.length = l.length ↔ l.length < 2 ^ 31 := by
  have range := int32_range l.length
  unfold InRange at range
  constructor
  · intro same
    omega
  · intro fits
    exact int32_of_range ⟨by omega, by omega⟩

end Buffer

/-- With matching arguments `vprintfmt` comes to an end, and `vsnprintf` leaves in the buffer what has room
    of its characters, and a NUL. It returns their number as long as that is an `int`. An escape that is not
    recognized is put out as it stands. -/
theorem vsnprintf_truncates :
    (∀ fmt ap, Matches (signature none fmt) ap → ∃ out, ∀ fuel, fmt.length + 9 ≤ fuel → vprintfmt fuel [] fmt ap = some out ∧
      ∀ mem buf n, buf ≠ 0 → 1 ≤ n → ∃ ret mem', vsnprintf fuel mem buf n fmt ap = some (ret, mem') ∧
        (ret = out.length ↔ out.length < 2 ^ 31) ∧
        (∀ i (inside : i < out.length), i < n - 1 → mem' (buf + i) = BitVec.ofInt 8 out[i]) ∧
        mem' (buf + min (n - 1) out.length) = 0 ∧
        ∀ a, a < buf ∨ buf + n ≤ a → mem' a = mem a) ∧
    ∀ run rest ap, (∀ ch ∈ run, isFlag ch) → Unrecognized rest → Matches (List.replicate (stars run) .word) ap →
      ∀ fuel before, vprintfmt (fuel + run.length + 1) before (percent :: (run ++ rest)) ap =
        (vprintfmt fuel (run.reverse ++ percent :: before) rest (ap.drop (stars run))).map (percent :: run ++ ·) := by
  refine ⟨fun fmt ap matching => ?_, fun run rest ap each unrecognized given fuel before =>
    vprintfmt_literally each unrecognized given fuel before⟩
  obtain ⟨out,formatted⟩ := vprintfmt_ends fmt [] matching
  refine ⟨out, fun fuel enough => ?_⟩
  have formatted := vprintfmt_more formatted enough
  refine ⟨formatted, fun mem buf n given room => ⟨_, _, vsnprintf_written given room formatted, int32_length out, ?_, ?_, ?_⟩⟩
  · intro i inside low
    have short : i < ((out.map (BitVec.ofInt 8)).take (n - 1).toNat).length := by
      rw [List.length_take, List.length_map]
      omega
    rw [written_at (by rw [List.length_append]; omega), List.getElem_append_left short, List.getElem_take, List.getElem_map]
  · have length : ((out.map (BitVec.ofInt 8)).take (n - 1).toNat).length = min (n - 1).toNat out.length := by
      rw [List.length_take, List.length_map]
    have place : min (n - 1) (out.length : Int) = ((min (n - 1).toNat out.length : Nat) : Int) := by omega
    rw [place, ← length, written_at (by simp), List.getElem_append_right (Nat.le_refl _)]
    simp
  · intro a outside
    refine written_out ?_
    simp only [List.length_append, List.length_take, List.length_map, List.length_singleton]
    omega


theorem vsnprintf_truncates_percent : ∃ ret mem', vsnprintf 12 (fun _ => 0xff) 0x1000 3 (text "50%") [] = some (ret, mem') ∧
    ret = 3 ∧ mem' 0x1000 = 0x35 ∧ mem' 0x1001 = 0x30 ∧ mem' 0x1002 = 0 ∧ mem' 0x1003 = 0xff := by
  obtain ⟨ends,literal⟩ := vsnprintf_truncates
  obtain ⟨out,formatted⟩ := ends (text "50%") [] trivial
  obtain ⟨formatted,buffer⟩ := formatted 12 (by decide)
  have last := literal [] [] [] (by simp) (by simp [Unrecognized]) trivial 9 [code '0', code '5']
  have parts : text "50%" = [code '5', code '0'] ++ [percent] := by decide
  have whole : vprintfmt 12 [] (text "50%") [] = some (text "50%") := by
    rw [parts, show 12 = 10 + [code '5', code '0'].length from rfl, vprintfmt_run (by decide)]
    have last : vprintfmt 10 [code '0', code '5'] [percent] [] = some [percent] := last
    exact congrArg (Option.map _) last
  rw [whole] at formatted
  obtain rfl := Option.some.inj formatted
  obtain ⟨ret,mem',returned,count,stored,ended,kept⟩ := buffer (fun _ => 0xff) 0x1000 3 (by decide) (by decide)
  exact ⟨ret, mem', returned, count.mpr (by decide), stored 0 (by decide) (by decide), stored 1 (by decide) (by decide),
    ended, kept 0x1003 (by decide)⟩

theorem number_zero_length (f : Flags) {base : Nat} (valid : 1 < base) :
    (number 0 base valid f).length = (int32 (f.width - 1)).toNat + 1 := by
  have zero : (0 : BitVec 64).toNat = 0 := rfl
  unfold number
  rw [zero, printnum_eq, numeral_small (by omega)]
  simp

/-- A number of full width and one more character: an `int` cannot count them. -/
theorem vsnprintf_wraps : Matches (signature none (text "%*dx")) [.word 0x7fffffff, .word 0] ∧
    ∃ out ret mem', vprintfmt 13 [] (text "%*dx") [.word 0x7fffffff, .word 0] = some out ∧
      vsnprintf 13 (fun _ => 0xff) 0x1000 1 (text "%*dx") [.word 0x7fffffff, .word 0] = some (ret, mem') ∧ ret ≠ out.length := by
  have parts : text "%*dx" = [percent, code '*', code 'd', code 'x'] := by decide
  have matching : Matches (signature none (text "%*dx")) [.word 0x7fffffff, .word 0] := by
    rw [parts]
    exact ⟨trivial, trivial, trivial⟩
  have escaped : reswitch (vprintfmt 12 []) Flags.start [percent] [code '*', code 'd', code 'x'] [.word 0x7fffffff, .word 0] =
      some ⟨number 0 10 (by decide) ⟨space, 0x7fffffff, -1, 0, false⟩, [code 'd', code '*', percent], [code 'x'], []⟩ := by
    rw [reswitch_cons, show caseOf (code '*') = .star by decide]
    dsimp only
    rw [reswitch_cons, show caseOf (code 'd') = .conversion .d by decide]
    rfl
  have formatted : vprintfmt 13 [] (text "%*dx") [.word 0x7fffffff, .word 0] =
      some (number 0 10 (by decide) ⟨space, 0x7fffffff, -1, 0, false⟩ ++ [code 'x']) := by
    rw [parts, vprintfmt_escape, escaped]
    rfl
  refine ⟨matching, _, _, _, formatted, vsnprintf_written (by decide) (by decide) formatted, fun same => ?_⟩
  have few := (int32_length _).mp same
  rw [List.length_append, number_zero_length] at few
  exact absurd few (by decide)

end JosPrintfmt
