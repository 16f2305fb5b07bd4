import KernelLabs.Lib.CInt
import KernelLabs.Lib.Numerals

/-!
Formatted output in xv6: `cprintf` of the kernel (`console.c`), `printf` of the user library
(`printf.c`), and `atoi` (`ulib.c`). A string is what stands before its NUL. The arguments are the
words above the format on the stack, some of them addresses of strings, and a character is the byte
that gets to the device.
-/
namespace Xv6Printf
open CInt Numerals

abbrev Byte := BitVec 8

def ascii (c : Char) : Byte := BitVec.ofNat 8 c.toNat

def bytes (s : String) : List Byte := s.toList.map ascii

/-- `digits` of `console.c`. -/
def lower : List Byte := bytes "0123456789abcdef"

/-- `digits` of `printf.c`. -/
def upper : List Byte := bytes "0123456789ABCDEF"

/-- `do buf[i++] = digits[x % base]; while ((x /= base) != 0);` -/
def digitLoop (digits : List Byte) (base : Nat) (valid : 1 < base) (x : Nat) : List Byte :=
  digits.getD (x % base) 0 :: if x / base = 0 then [] else digitLoop digits base valid (x / base)
termination_by x
decreasing_by
  rename_i more
  exact Nat.div_lt_self (Nat.pos_of_ne_zero fun zero => more (by rw [zero, Nat.zero_div])) valid

/-- What `printint` has in `buf`. -/
def buf (digits : List Byte) (xx : BitVec 32) (base : Nat) (valid : 1 < base) (sign : Bool) : List Byte :=
  let neg := sign && xx.slt 0
  digitLoop digits base valid (if neg then (-xx).toNat else xx.toNat) ++ if neg then [ascii '-'] else []

/-- The same in `console.c` and `printf.c`, but for `digits`. -/
def printint (digits : List Byte) (xx : BitVec 32) (base : Nat) (valid : 1 < base) (sign : Bool) : List Byte :=
  (buf digits xx base valid sign).reverse

theorem base_ten : 1 < 10 := by decide

theorem base_sixteen : 1 < 16 := by decide

structure Args where
  word : Nat → BitVec 32
  string : BitVec 32 → List Byte

def Args.text (v : Args) (k : Nat) : List Byte := if v.word k = 0 then bytes "(null)" else v.string (v.word k)

/-- `cprintf` with `argp` at word `k`. -/
def cprintf (v : Args) : List Byte → Nat → List Byte
  | [], _ => []
  | c :: fmt, k =>
    if c ≠ ascii '%' then c :: cprintf v fmt k
    else
      match fmt with
      | [] => []
      | c :: fmt =>
        if c = ascii 'd' then printint lower (v.word k) 10 base_ten true ++ cprintf v fmt (k + 1)
        else if c = ascii 'x' ∨ c = ascii 'p' then
          printint lower (v.word k) 16 base_sixteen false ++ cprintf v fmt (k + 1)
        else if c = ascii 's' then v.text k ++ cprintf v fmt (k + 1)
        else if c = ascii '%' then ascii '%' :: cprintf v fmt k
        else ascii '%' :: c :: cprintf v fmt k

/-- The variables of `printf`, and what it has put out. -/
structure Printer where
  percent : Bool
  ap : Nat
  out : List Byte

def printfOne (v : Args) (s : Printer) (c : Byte) : Printer :=
  if s.percent then
    if c = ascii 'd' then ⟨false, s.ap + 1, s.out ++ printint upper (v.word s.ap) 10 base_ten true⟩
    else if c = ascii 'x' ∨ c = ascii 'p' then ⟨false, s.ap + 1, s.out ++ printint upper (v.word s.ap) 16 base_sixteen false⟩
    else if c = ascii 's' then ⟨false, s.ap + 1, s.out ++ v.text s.ap⟩
    else if c = ascii 'c' then ⟨false, s.ap + 1, s.out ++ [(v.word s.ap).setWidth 8]⟩
    else if c = ascii '%' then ⟨false, s.ap, s.out ++ [c]⟩
    else ⟨false, s.ap, s.out ++ [ascii '%', c]⟩
  else if c = ascii '%' then { s with percent := true }
  else { s with out := s.out ++ [c] }

def printf (v : Args) (fmt : List Byte) : List Byte := (fmt.foldl (printfOne v) ⟨false, 0, []⟩).out

/-- The loop of `atoi`. -/
def atoiLoop : Int → List Byte → Int
  | n, [] => n
  | n, c :: s => if ascii '0' ≤ c ∧ c ≤ ascii '9' then atoiLoop (int32 (n * 10 + c.toNat - 0x30)) s else n

def atoi (s : List Byte) : Int := atoiLoop 0 s

section Numbers
variable {digits : List Byte} {base x : Nat} {w : BitVec 32}

def numeralText (digits : List Byte) (base x : Nat) : List Byte := (numeral base x).map fun d => digits.getD d 0

/-- A number with its sign, as it is read. -/
def decimal (digits : List Byte) (w : BitVec 32) : List Byte :=
  (if w.toInt < 0 then [ascii '-'] else []) ++ numeralText digits 10 w.toInt.natAbs

theorem digitLoop_eq (valid : 1 < base) (x : Nat) :
    (digitLoop digits base valid x).reverse = numeralText digits base x := by
  unfold numeralText
  induction x using Nat.strong_induction_on with
  | h x ih =>
    rw [digitLoop, List.reverse_cons]
    by_cases large : base ≤ x
    · have left : x / base ≠ 0 := Nat.ne_of_gt (Nat.div_pos large (by omega))
      rw [if_neg left, ih _ (Nat.div_lt_self (by omega) valid), numeral_step valid large, List.map_append]
      rfl
    · have last : x / base = 0 := Nat.div_eq_of_lt (by omega)
      rw [if_pos last, numeral_small (by omega), Nat.mod_eq_of_lt (by omega)]
      rfl

theorem digitLoop_length (valid : 1 < base) {k : Nat} (some : 0 < k) (small : x < base ^ k) :
    (digitLoop digits base valid x).length ≤ k := by
  have short := numeral_length_le valid some small
  have same : (digitLoop digits base valid x).reverse.length = (numeralText digits base x).length :=
    congrArg List.length (digitLoop_eq valid x)
  unfold numeralText at same
  rw [List.length_reverse, List.length_map] at same
  omega

/-- The least `int` too has a sign and its digits. -/
theorem magnitude (w : BitVec 32) : (w.slt 0 = true ↔ w.toInt < 0) ∧ (w.toInt < 0 → (-w).toNat = w.toInt.natAbs) ∧
    (¬ w.toInt < 0 → w.toNat = w.toInt.natAbs) := by
  have low := w.isLt
  have value := BitVec.toInt_eq_toNat_cond w
  refine ⟨?_, fun neg => ?_, fun pos => ?_⟩
  · rw [BitVec.slt_iff_toInt_lt]
    rfl
  · rw [BitVec.toNat_neg]
    split at value <;> omega
  · split at value <;> omega

theorem printint_decimal (w : BitVec 32) : printint digits w 10 (by decide) true = decimal digits w := by
  obtain ⟨sign,neg,pos⟩ := magnitude w
  unfold printint buf decimal
  dsimp only
  rw [Bool.true_and, List.reverse_append, digitLoop_eq]
  by_cases below : w.toInt < 0
  · rw [if_pos (sign.mpr below), if_pos (sign.mpr below), if_pos below, neg below]
    rfl
  · rw [if_neg fun test => below (sign.mp test), if_neg fun test => below (sign.mp test), if_neg below, pos below]
    rfl

theorem printint_hex (w : BitVec 32) : printint digits w 16 (by decide) false = numeralText digits 16 w.toNat := by
  unfold printint buf
  dsimp only
  rw [Bool.false_and, if_neg Bool.false_ne_true, if_neg Bool.false_ne_true, List.append_nil, digitLoop_eq]

theorem buf_length (w : BitVec 32) : (buf digits w 10 (by decide) true).length ≤ 11 ∧
    (buf digits w 16 (by decide) false).length ≤ 8 := by
  have all : ∀ x : BitVec 32, x.toNat < 10 ^ 10 ∧ x.toNat < 16 ^ 8 := fun x => by
    have := x.isLt
    omega
  have ten : ∀ x : BitVec 32, (digitLoop digits 10 (by decide) x.toNat).length ≤ 10 := fun x =>
    digitLoop_length (by decide) (by decide) (all x).1
  unfold buf
  dsimp only
  constructor
  · rw [List.length_append]
    split
    · exact Nat.add_le_add (ten (-w)) (Nat.le_refl 1)
    · exact Nat.add_le_add (ten w) (Nat.zero_le 1)
  · rw [Bool.false_and, if_neg Bool.false_ne_true, if_neg Bool.false_ne_true, List.append_nil]
    exact digitLoop_length (by decide) (by decide) (all w).2

/-- The table has the ten digits of a decimal number. -/
def Tens (digits : List Byte) : Prop := ∀ d, d < 10 → digits.getD d 0 = BitVec.ofNat 8 (0x30 + d)

theorem tens_lower : Tens lower := by
  unfold Tens
  decide

theorem tens_upper : Tens upper := by
  unfold Tens
  decide

theorem atoiLoop_value (tens : Tens digits) (number : List Nat) (each : ∀ d ∈ number, d < 10) (n : Nat)
    (fits : value 10 n number < 2 ^ 31) :
    atoiLoop n (number.map fun d => digits.getD d 0) = (value 10 n number : Int) := by
  induction number generalizing n with
  | nil => rfl
  | cons d number ih =>
    have small := each d List.mem_cons_self
    have digit : ∀ d, d < 10 → (ascii '0' ≤ BitVec.ofNat 8 (0x30 + d) ∧ BitVec.ofNat 8 (0x30 + d) ≤ ascii '9') ∧
        (BitVec.ofNat 8 (0x30 + d)).toNat = 0x30 + d := by decide
    obtain ⟨inside,read⟩ := digit d small
    rw [value_cons] at fits ⊢
    have step := Nat.lt_of_le_of_lt (le_value (by decide) number (n * 10 + d)) fits
    have next : int32 ((n : Int) * 10 + ((0x30 + d : Nat) : Int) - 0x30) = ((n * 10 + d : Nat) : Int) := by
      rw [show (n : Int) * 10 + ((0x30 + d : Nat) : Int) - 0x30 = ((n * 10 + d : Nat) : Int) by push_cast; omega]
      exact int32_of_range ⟨by omega, by omega⟩
    rw [List.map_cons, tens d small, atoiLoop, if_pos inside, read, next]
    exact ih (fun e member => each e (List.mem_cons_of_mem d member)) _ fits

theorem atoi_decimal (tens : Tens digits) (w : BitVec 32) :
    atoi (decimal digits w) = if w.toInt < 0 then 0 else w.toInt := by
  unfold decimal
  by_cases below : w.toInt < 0
  · rw [if_pos below, if_pos below]
    rfl
  · have whole := value_numeral 10 w.toInt.natAbs
    have high : w.toInt < 2 ^ 31 := BitVec.toInt_lt
    rw [if_neg below, if_neg below, List.nil_append]
    have read := atoiLoop_value tens (numeral 10 w.toInt.natAbs) (numeral_lt (by decide)) 0 (by rw [whole]; omega)
    rw [whole] at read
    exact read.trans (Int.natAbs_of_nonneg (Int.not_lt.mp below))

/-- Every `int` is printed with its sign and its digits, the least one too, within the 16 bytes of `buf`;
`atoi` reads the number back, unless it has a sign. -/
theorem printint_atoi (w : BitVec 32) : ∀ digits ∈ [lower, upper],
    printint digits w 10 (by decide) true = decimal digits w ∧
    printint digits w 16 (by decide) false = numeralText digits 16 w.toNat ∧
    (buf digits w 10 (by decide) true).length ≤ 16 ∧ (buf digits w 16 (by decide) false).length ≤ 16 ∧
    atoi (printint digits w 10 (by decide) true) = if w.toInt < 0 then 0 else w.toInt := by
  intro digits member
  have tens : Tens digits := by
    rcases List.mem_cons.mp member with rfl | last
    · exact tens_lower
    · exact List.mem_singleton.mp last ▸ tens_upper
  obtain ⟨first,second⟩ := @buf_length digits w
  refine ⟨printint_decimal w, printint_hex w, Nat.le_trans first (by decide), Nat.le_trans second (by decide), ?_⟩
  rw [printint_decimal]
  exact atoi_decimal tens w

theorem printint_atoi_least : printint lower 0x80000000#32 10 (by decide) true = bytes "-2147483648" ∧
    atoi (printint lower 0x80000000#32 10 (by decide) true) = 0 := by
  obtain ⟨shown,_,_,_,back⟩ := printint_atoi 0x80000000#32 lower List.mem_cons_self
  refine ⟨shown.trans ?_, back.trans (if_pos (by decide))⟩
  have magnitude : (0x80000000#32).toInt.natAbs = 2147483648 := by decide
  unfold decimal numeralText
  rw [if_pos (by decide), magnitude]
  decide

end Numbers

section Formats

/-- A part of a format: a character, or a `%` with the character behind it. -/
inductive Piece where
  | plain (c : Byte) (other : c ≠ ascii '%')
  | conversion (c : Byte)

def Piece.text : Piece → List Byte
  | .plain c _ => [c]
  | .conversion c => [ascii '%', c]

/-- How the two printers differ. -/
structure Style where
  digits : List Byte
  chars : Bool

def kernel : Style := ⟨lower, false⟩

def user : Style := ⟨upper, true⟩

/-- What a conversion makes of argument `k`, if it takes one. -/
def Style.converts (s : Style) (v : Args) (c : Byte) (k : Nat) : Option (List Byte) :=
  if c = ascii 'd' then some (decimal s.digits (v.word k))
  else if c = ascii 'x' ∨ c = ascii 'p' then some (numeralText s.digits 16 (v.word k).toNat)
  else if c = ascii 's' then some (v.text k)
  else if c = ascii 'c' ∧ s.chars then some [(v.word k).setWidth 8]
  else none

/-- Each conversion that takes an argument takes the next one. -/
def Style.render (s : Style) (v : Args) : List Piece → Nat → List Byte
  | [], _ => []
  | .plain c _ :: pieces, k => c :: s.render v pieces k
  | .conversion c :: pieces, k =>
    match s.converts v c k with
    | some out => out ++ s.render v pieces (k + 1)
    | none => (if c = ascii '%' then [c] else [ascii '%', c]) ++ s.render v pieces k

variable {v : Args} {pieces : List Piece} {last : List Byte}

/-- Every format is made of pieces, and may end in a `%` alone. -/
theorem pieces_of (fmt : List Byte) :
    ∃ (pieces : List Piece) (last : List Byte), fmt = pieces.flatMap Piece.text ++ last ∧
      (last = [] ∨ last = [ascii '%']) := by
  match fmt with
  | [] => exact ⟨[], [], rfl, .inl rfl⟩
  | [c] =>
    by_cases percent : c = ascii '%'
    · exact ⟨[], [c], rfl, .inr (percent ▸ rfl)⟩
    · exact ⟨[.plain c percent], [], rfl, .inl rfl⟩
  | c :: d :: fmt =>
    by_cases percent : c = ascii '%'
    · obtain ⟨pieces,last,same,ends⟩ := pieces_of fmt
      exact ⟨.conversion d :: pieces, last, by rw [percent, same]; rfl, ends⟩
    · obtain ⟨pieces,last,same,ends⟩ := pieces_of (d :: fmt)
      exact ⟨.plain c percent :: pieces, last, by rw [same]; rfl, ends⟩

theorem cprintf_plain {c : Byte} (other : c ≠ ascii '%') (fmt : List Byte) (k : Nat) :
    cprintf v (c :: fmt) k = c :: cprintf v fmt k := by
  rw [cprintf.eq_def]
  dsimp only
  rw [if_pos other]

theorem cprintf_conversion (c : Byte) (fmt : List Byte) (k : Nat) : cprintf v (ascii '%' :: c :: fmt) k =
    match kernel.converts v c k with
    | some out => out ++ cprintf v fmt (k + 1)
    | none => (if c = ascii '%' then [c] else [ascii '%', c]) ++ cprintf v fmt k := by
  rw [cprintf.eq_def]
  dsimp only
  rw [if_neg (not_not.mpr rfl), printint_decimal, printint_hex]
  unfold Style.converts
  by_cases d : c = ascii 'd'
  · rw [if_pos d, if_pos d]
    rfl
  rw [if_neg d, if_neg d]
  by_cases x : c = ascii 'x' ∨ c = ascii 'p'
  · rw [if_pos x, if_pos x]
    rfl
  rw [if_neg x, if_neg x]
  by_cases s : c = ascii 's'
  · rw [if_pos s, if_pos s]
  have never : ¬ (c = ascii 'c' ∧ kernel.chars = true) := fun both => Bool.false_ne_true both.2
  rw [if_neg s, if_neg s, if_neg never]
  dsimp only
  by_cases percent : c = ascii '%'
  · rw [if_pos percent, if_pos percent, percent]
    rfl
  · rw [if_neg percent, if_neg percent]
    rfl

theorem cprintf_pieces (ends : last = [] ∨ last = [ascii '%']) (k : Nat) :
    cprintf v (pieces.flatMap Piece.text ++ last) k = kernel.render v pieces k := by
  induction pieces generalizing k with
  | nil =>
    rcases ends with rfl | rfl
    · rfl
    · rfl
  | cons piece pieces ih =>
    rw [List.flatMap_cons, List.append_assoc]
    cases piece with
    | plain c other =>
      change cprintf v (c :: (pieces.flatMap Piece.text ++ last)) k = c :: kernel.render v pieces k
      rw [cprintf_plain other, ih]
    | conversion c =>
      change cprintf v (ascii '%' :: c :: (pieces.flatMap Piece.text ++ last)) k = _
      rw [cprintf_conversion, Style.render, ih, ih]

theorem printf_plain {c : Byte} (other : c ≠ ascii '%') (k : Nat) (out : List Byte) :
    printfOne v ⟨false, k, out⟩ c = ⟨false, k, out ++ [c]⟩ := by
  unfold printfOne
  rw [if_neg Bool.false_ne_true, if_neg other]

/-- The two steps for a conversion. -/
theorem printf_conversion (c : Byte) (k : Nat) (out : List Byte) :
    printfOne v (printfOne v ⟨false, k, out⟩ (ascii '%')) c =
    match user.converts v c k with
    | some more => ⟨false, k + 1, out ++ more⟩
    | none => ⟨false, k, out ++ if c = ascii '%' then [c] else [ascii '%', c]⟩ := by
  have noted : printfOne v ⟨false, k, out⟩ (ascii '%') = ⟨true, k, out⟩ := by
    unfold printfOne
    rw [if_neg Bool.false_ne_true, if_pos rfl]
  rw [noted]
  unfold printfOne
  rw [if_pos rfl, printint_decimal, printint_hex]
  unfold Style.converts
  by_cases d : c = ascii 'd'
  · rw [if_pos d, if_pos d]
    rfl
  rw [if_neg d, if_neg d]
  by_cases x : c = ascii 'x' ∨ c = ascii 'p'
  · rw [if_pos x, if_pos x]
    rfl
  rw [if_neg x, if_neg x]
  by_cases s : c = ascii 's'
  · rw [if_pos s, if_pos s]
  rw [if_neg s, if_neg s]
  by_cases char : c = ascii 'c'
  · rw [if_pos char, if_pos ⟨char,rfl⟩]
  have never : ¬ (c = ascii 'c' ∧ user.chars = true) := fun both => char both.1
  rw [if_neg char, if_neg never]
  dsimp only
  by_cases percent : c = ascii '%'
  · rw [if_pos percent, if_pos percent]
  · rw [if_neg percent, if_neg percent]

theorem printf_pieces (ends : last = [] ∨ last = [ascii '%']) (k : Nat) (out : List Byte) :
    ((pieces.flatMap Piece.text ++ last).foldl (printfOne v) ⟨false, k, out⟩).out = out ++ user.render v pieces k := by
  induction pieces generalizing k out with
  | nil =>
    rcases ends with rfl | rfl
    · exact (List.append_nil out).symm
    · exact (List.append_nil out).symm
  | cons piece pieces ih =>
    rw [List.flatMap_cons, List.append_assoc, List.foldl_append]
    cases piece with
    | plain c other =>
      change (List.foldl (printfOne v) (printfOne v ⟨false, k, out⟩ c) _).out = out ++ c :: user.render v pieces k
      rw [printf_plain other, ih, List.append_assoc]
      rfl
    | conversion c =>
      change (List.foldl (printfOne v) (printfOne v (printfOne v ⟨false, k, out⟩ (ascii '%')) c) _).out = _
      rw [printf_conversion, Style.render]
      cases user.converts v c k with
      | none => rw [ih, List.append_assoc]
      | some more => rw [ih, List.append_assoc]

/-- Neither a character nor a number in base 16. -/
def Piece.Common : Piece → Prop
  | .plain _ _ => True
  | .conversion c => c ≠ ascii 'c' ∧ c ≠ ascii 'x' ∧ c ≠ ascii 'p'

theorem decimal_tables (w : BitVec 32) : decimal upper w = decimal lower w := by
  have same : numeralText upper 10 w.toInt.natAbs = numeralText lower 10 w.toInt.natAbs := by
    refine List.map_congr_left fun d member => ?_
    have small := numeral_lt (by decide) d member
    rw [tens_upper d small, tens_lower d small]
  unfold decimal
  rw [same]

theorem render_common (common : ∀ piece ∈ pieces, piece.Common) (k : Nat) :
    user.render v pieces k = kernel.render v pieces k := by
  induction pieces generalizing k with
  | nil => rw [Style.render, Style.render]
  | cons piece pieces ih =>
    have first := common piece List.mem_cons_self
    have more := ih fun other member => common other (List.mem_cons_of_mem piece member)
    cases piece with
    | plain c other => rw [Style.render, Style.render, more]
    | conversion c =>
      obtain ⟨char,x,p⟩ := first
      have same : user.converts v c k = kernel.converts v c k := by
        have hex : ¬ (c = ascii 'x' ∨ c = ascii 'p') := fun either => either.elim x p
        have never : ∀ s : Style, ¬ (c = ascii 'c' ∧ s.chars = true) := fun _ both => char both.1
        have number : decimal user.digits (v.word k) = decimal kernel.digits (v.word k) := decimal_tables _
        unfold Style.converts
        rw [number, if_neg hex, if_neg hex, if_neg (never user), if_neg (never kernel)]
      rw [Style.render, Style.render, same, more, more]

/-- Whatever the format and the arguments, `cprintf`, which looks ahead, and `printf`, which keeps a state,
put out what the same pieces stand for, the same characters if the pieces are common to both. -/
theorem formats_printed (v : Args) (fmt : List Byte) : ∃ pieces last, fmt = pieces.flatMap Piece.text ++ last ∧
    (last = [] ∨ last = [ascii '%']) ∧
    cprintf v fmt 0 = kernel.render v pieces 0 ∧ printf v fmt = user.render v pieces 0 ∧
    ((∀ piece ∈ pieces, piece.Common) → printf v fmt = cprintf v fmt 0) := by
  obtain ⟨pieces,last,same,ends⟩ := pieces_of fmt
  have ahead : cprintf v fmt 0 = kernel.render v pieces 0 := by
    rw [same]
    exact cprintf_pieces ends 0
  have state : printf v fmt = user.render v pieces 0 := by
    rw [same]
    exact printf_pieces ends 0 []
  refine ⟨pieces, last, same, ends, ahead, state, fun common => ?_⟩
  rw [state, ahead]
  exact render_common common 0

end Formats
end Xv6Printf
