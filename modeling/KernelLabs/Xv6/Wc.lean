import KernelLabs.Lib.Words
import KernelLabs.Xv6.Printf

/-!
`wc` (`wc.c`), from what `open` and `read` return to what is printed. The counts have 32 bits, and the
text comes in reads of at most 512 bytes, which cut lines and words anywhere.
-/
namespace Xv6Wc
open Words Xv6Printf

/-- The characters that `strchr` looks among. -/
def gaps : List Byte := bytes " \r\t\n\x0b"

/-- `strchr` finds a character of `s` in front of the NUL, and not the NUL. -/
def strchr (s : List Byte) (b : Byte) : Bool := s.contains b

structure Counts where
  l : BitVec 32
  w : BitVec 32
  c : BitVec 32
  inword : Bool

/-- The body of the inner loop. -/
def countOne (s : Counts) (b : Byte) : Counts :=
  let s := { s with c := s.c + 1 }
  let s := if b = ascii '\n' then { s with l := s.l + 1 } else s
  if strchr gaps b then { s with inword := false }
  else if s.inword then s
  else { s with w := s.w + 1, inword := true }

/-- What the reads of one file get: the bytes of each but the last, which gets nothing or fails. -/
structure Input where
  reads : List (List Byte)
  each : ∀ got ∈ reads, 0 < got.length ∧ got.length ≤ 512
  failed : Bool

/-- The arguments of a call of `printf`. -/
def args (string : BitVec 32 → List Byte) (words : List (BitVec 32)) : Args := ⟨fun k => words.getD k 0, string⟩

/-- What `wc` prints, and whether it returns. -/
def wc (string : BitVec 32 → List Byte) (input : Input) (name : BitVec 32) : List Byte × Bool :=
  let s := input.reads.foldl (fun s got => got.foldl countOne s) ⟨0, 0, 0, false⟩
  if input.failed then (printf (args string []) (bytes "wc: read error\n"), false)
  else (printf (args string [s.l, s.w, s.c, name]) (bytes "%d %d %d %s\n"), true)

/-- The loop of `main` over the arguments, each with what it opens. -/
def files (string : BitVec 32 → List Byte) : List (BitVec 32 × Option Input) → List Byte
  | [] => []
  | (name, none) :: _ => printf (args string [name]) (bytes "wc: cannot open %s\n")
  | (name, some input) :: argv =>
    let (out, back) := wc string input name
    if back then out ++ files string argv else out

/-- `main`, with `empty` the address of `""`. -/
def main (string : BitVec 32 → List Byte) (empty : BitVec 32) (stdin : Input) (argv : List (BitVec 32 × Option Input)) :
    List Byte :=
  if argv = [] then (wc string stdin empty).1 else files string argv

section Counting
variable {b : Byte}

theorem countOne_eq (s : Counts) (b : Byte) : countOne s b =
    ⟨if b = ascii '\n' then s.l + 1 else s.l, if strchr gaps b ∨ s.inword then s.w else s.w + 1, s.c + 1, !strchr gaps b⟩ := by
  have flags : ∀ t : Counts, (if strchr gaps b then { t with inword := false } else if t.inword then t
      else { t with w := t.w + 1, inword := true }) =
      ⟨t.l, if strchr gaps b ∨ t.inword then t.w else t.w + 1, t.c, !strchr gaps b⟩ := by
    intro t
    obtain ⟨l,w,c,inword⟩ := t
    cases strchr gaps b <;> cases inword <;> rfl
  unfold countOne
  by_cases newline : b = ascii '\n'
  · dsimp only
    rw [if_pos newline, if_pos newline]
    exact flags _
  · dsimp only
    rw [if_neg newline, if_neg newline]
    exact flags _

theorem count_l (text : List Byte) (s : Counts) :
    (text.foldl countOne s).l = s.l + BitVec.ofNat 32 (text.count (ascii '\n')) := by
  induction text generalizing s with
  | nil => exact (BitVec.add_zero s.l).symm
  | cons b text ih =>
    rw [List.foldl_cons, ih, countOne_eq, List.count_cons]
    dsimp only
    by_cases line : b = ascii '\n'
    · rw [if_pos line, if_pos (beq_iff_eq.mpr line), Nat.add_comm, BitVec.ofNat_add, BitVec.add_assoc]
      rfl
    · rw [if_neg line, if_neg fun same => line (beq_iff_eq.mp same), Nat.add_zero]

theorem count_c (text : List Byte) (s : Counts) : (text.foldl countOne s).c = s.c + BitVec.ofNat 32 text.length := by
  induction text generalizing s with
  | nil => exact (BitVec.add_zero s.c).symm
  | cons b text ih =>
    rw [List.foldl_cons, ih, countOne_eq, List.length_cons, Nat.add_comm, BitVec.ofNat_add, ← BitVec.add_assoc]
    rfl

/-- The words to come, the rest of a word that has been counted left out. -/
def ahead (inside : Bool) (text : List Byte) : Nat :=
  (words (strchr gaps) (if inside then text.dropWhile fun b => !strchr gaps b else text)).length

theorem ahead_nil (inside : Bool) : ahead inside [] = 0 := by
  unfold ahead
  rw [List.dropWhile_nil, ite_self]
  rfl

theorem ahead_gap (inside : Bool) (gap : strchr gaps b = true) : ahead inside (b :: text) = ahead false text := by
  have same : (b :: text).dropWhile (fun b => !strchr gaps b) = b :: text :=
    List.dropWhile_cons_of_neg (by rw [gap]; decide)
  unfold ahead
  rw [same, ite_self, words_sep gap]
  rfl

theorem ahead_plain (inside : Bool) (plain : strchr gaps b = false) :
    ahead inside (b :: text) = (if inside then 0 else 1) + ahead true text := by
  have rest : (b :: text).dropWhile (fun b => !strchr gaps b) = text.dropWhile fun b => !strchr gaps b :=
    List.dropWhile_cons_of_pos (by rw [plain]; rfl)
  cases inside with
  | true =>
    rw [if_pos rfl, Nat.zero_add]
    unfold ahead
    rw [if_pos rfl, if_pos rfl, rest]
  | false =>
    have first : (b :: text).dropWhile (strchr gaps) = b :: text :=
      List.dropWhile_cons_of_neg (by rw [plain]; decide)
    have cut := words_cut first
    rw [rest] at cut
    unfold ahead
    rw [if_neg Bool.false_ne_true, if_neg Bool.false_ne_true, if_pos rfl, cut, List.length_cons, Nat.add_comm]

theorem count_w (text : List Byte) (s : Counts) :
    (text.foldl countOne s).w = s.w + BitVec.ofNat 32 (ahead s.inword text) := by
  induction text generalizing s with
  | nil =>
    rw [ahead_nil]
    exact (BitVec.add_zero s.w).symm
  | cons b text ih =>
    rw [List.foldl_cons, ih, countOne_eq]
    dsimp only
    by_cases gap : strchr gaps b = true
    · rw [if_pos (.inl gap), gap, ahead_gap s.inword gap]
      rfl
    · have plain : strchr gaps b = false := Bool.eq_false_of_not_eq_true gap
      rw [plain, ahead_plain s.inword plain]
      cases inside : s.inword with
      | true =>
        rw [if_pos (.inr rfl), if_pos rfl, Nat.zero_add]
        rfl
      | false =>
        have neither : ¬ (false = true ∨ false = true) := fun either => either.elim Bool.false_ne_true Bool.false_ne_true
        rw [if_neg neither, if_neg Bool.false_ne_true, BitVec.ofNat_add, BitVec.add_assoc]
        rfl

theorem ahead_le (inside : Bool) (text : List Byte) : ahead inside text ≤ text.length := by
  induction text generalizing inside with
  | nil =>
    rw [ahead_nil]
    exact Nat.le_refl 0
  | cons b text ih =>
    rw [List.length_cons]
    by_cases gap : strchr gaps b = true
    · rw [ahead_gap inside gap]
      exact Nat.le_succ_of_le (ih false)
    · have more := ih true
      rw [ahead_plain inside (Bool.eq_false_of_not_eq_true gap)]
      split <;> omega

end Counting

section Printing
variable {string : BitVec 32 → List Byte} {text : List Byte}

/-- The line for a file, from its counts. -/
def line (l w c name : List Byte) : List Byte := l ++ bytes " " ++ w ++ bytes " " ++ c ++ bytes " " ++ name ++ bytes "\n"

def report (text name : List Byte) : List Byte :=
  line (decimal upper (BitVec.ofNat 32 (text.count (ascii '\n'))))
    (decimal upper (BitVec.ofNat 32 (words (strchr gaps) text).length)) (decimal upper (BitVec.ofNat 32 text.length)) name

def called (string : BitVec 32 → List Byte) (name : BitVec 32) : List Byte := if name = 0 then bytes "(null)" else string name

/-- The lines up to the first file that cannot be opened or read. -/
def reports (string : BitVec 32 → List Byte) : List (BitVec 32 × Option Input) → List Byte
  | [] => []
  | (name, none) :: _ => bytes "wc: cannot open " ++ called string name ++ bytes "\n"
  | (name, some input) :: argv =>
    if input.failed then bytes "wc: read error\n"
    else report input.reads.flatten (called string name) ++ reports string argv

theorem printf_text {v : Args} {k : Nat} {out fmt : List Byte} (free : ascii '%' ∉ fmt) :
    fmt.foldl (printfOne v) ⟨false, k, out⟩ = ⟨false, k, out ++ fmt⟩ := by
  induction fmt generalizing out with
  | nil => exact congrArg (Printer.mk false k) (List.append_nil out).symm
  | cons c fmt ih =>
    rw [List.mem_cons, not_or] at free
    rw [List.foldl_cons, printf_plain (Ne.symm free.1), ih free.2, List.append_assoc]
    rfl

theorem printf_number (v : Args) (k : Nat) (out : List Byte) :
    printfOne v (printfOne v ⟨false, k, out⟩ (ascii '%')) (ascii 'd') = ⟨false, k + 1, out ++ decimal upper (v.word k)⟩ := by
  rw [printf_conversion]
  rfl

theorem printf_string (v : Args) (k : Nat) (out : List Byte) :
    printfOne v (printfOne v ⟨false, k, out⟩ (ascii '%')) (ascii 's') = ⟨false, k + 1, out ++ v.text k⟩ := by
  rw [printf_conversion]
  rfl

theorem printf_error (v : Args) : printf v (bytes "wc: read error\n") = bytes "wc: read error\n" := by
  unfold printf
  rw [printf_text (by decide)]
  rfl

theorem printf_open (name : BitVec 32) : printf (args string [name]) (bytes "wc: cannot open %s\n") =
    bytes "wc: cannot open " ++ called string name ++ bytes "\n" := by
  have parts : bytes "wc: cannot open %s\n" = bytes "wc: cannot open " ++ ascii '%' :: ascii 's' :: bytes "\n" := by decide
  unfold printf
  rw [parts, List.foldl_append, printf_text (by decide), List.foldl_cons, List.foldl_cons, printf_string,
    printf_text (by decide)]
  rfl

theorem printf_counts (l w c name : BitVec 32) : printf (args string [l, w, c, name]) (bytes "%d %d %d %s\n") =
    line (decimal upper l) (decimal upper w) (decimal upper c) (called string name) := by
  have parts : bytes "%d %d %d %s\n" = ascii '%' :: ascii 'd' :: (bytes " " ++ ascii '%' :: ascii 'd' :: (bytes " " ++
      ascii '%' :: ascii 'd' :: (bytes " " ++ ascii '%' :: ascii 's' :: bytes "\n"))) := by decide
  have blank : ascii '%' ∉ bytes " " := by decide
  unfold printf
  rw [parts, List.foldl_cons, List.foldl_cons, printf_number, List.foldl_append, printf_text blank,
    List.foldl_cons, List.foldl_cons, printf_number, List.foldl_append, printf_text blank,
    List.foldl_cons, List.foldl_cons, printf_number, List.foldl_append, printf_text blank,
    List.foldl_cons, List.foldl_cons, printf_string, printf_text (by decide)]
  rfl

theorem wc_eq (input : Input) (name : BitVec 32) : wc string input name =
    if input.failed then (bytes "wc: read error\n", false)
    else (report input.reads.flatten (called string name), true) := by
  have whole : input.reads.foldl (fun s got => got.foldl countOne s) ⟨0, 0, 0, false⟩ =
      input.reads.flatten.foldl countOne ⟨0, 0, 0, false⟩ := List.foldl_flatten.symm
  unfold wc
  rw [whole]
  dsimp only
  rw [count_l, count_w, count_c, printf_error, printf_counts]
  dsimp only
  have zero : ∀ x : BitVec 32, 0 + x = x := BitVec.zero_add
  rw [zero, zero, zero]
  rfl

theorem files_eq (argv : List (BitVec 32 × Option Input)) : files string argv = reports string argv := by
  induction argv with
  | nil => rfl
  | cons file argv ih =>
    obtain ⟨name,opened⟩ := file
    cases opened with
    | none =>
      rw [files, reports]
      exact printf_open name
    | some input =>
      rw [files, reports, wc_eq, ih]
      cases input.failed with
      | true => rfl
      | false => rfl

theorem decimal_small {n : Nat} (small : n < 2 ^ 31) : decimal upper (BitVec.ofNat 32 n) = numeralText upper 10 n := by
  have same : (BitVec.ofNat 32 n).toInt = n := by
    rw [BitVec.toInt_eq_toNat_cond, BitVec.toNat_ofNat, Nat.mod_eq_of_lt (by omega), if_pos (by omega)]
  unfold decimal
  rw [same, if_neg (Int.not_lt.mpr (Int.natCast_nonneg n)), Int.natAbs_natCast]
  rfl

theorem report_small (small : text.length < 2 ^ 31) (name : List Byte) : report text name =
    line (numeralText upper 10 (text.count (ascii '\n'))) (numeralText upper 10 (words (strchr gaps) text).length)
      (numeralText upper 10 text.length) name := by
  have lines : text.count (ascii '\n') ≤ text.length := List.count_le_length
  have split : (words (strchr gaps) text).length ≤ text.length := ahead_le false text
  unfold report
  rw [decimal_small (by omega), decimal_small (by omega), decimal_small small]

/-- `wc` prints the lines, the words and the bytes of each file, however the reads cut it, up to the first file
that cannot be opened or read; below 2 GiB the counts are exact. -/
theorem main_reports (string : BitVec 32 → List Byte) (empty : BitVec 32) (stdin : Input)
    (argv : List (BitVec 32 × Option Input)) :
    main string empty stdin argv = (if argv = [] then reports string [(empty, some stdin)] else reports string argv) ∧
    ∀ text name : List Byte, text.length < 2 ^ 31 → report text name =
      line (numeralText upper 10 (text.count (ascii '\n'))) (numeralText upper 10 (words (strchr gaps) text).length)
        (numeralText upper 10 text.length) name := by
  refine ⟨?_, fun text name small => report_small small name⟩
  unfold main
  rw [files_eq, reports, reports, wc_eq]
  cases stdin.failed with
  | true => rfl
  | false =>
    rw [if_neg Bool.false_ne_true, if_neg Bool.false_ne_true, List.append_nil]

end Printing
end Xv6Wc
