import KernelLabs.Lib.CInt
import KernelLabs.Lib.Numerals

/-!
Numbers as text in JOS (lab-1 `printfmt.c` and `string.c`): `printnum` writes a number in a base,
padded to a width, and `strtol` reads one. A character is the `int` that is given to `putch`, a
string what stands before its NUL. An `int` and a `long` have 32 bits and wrap around.
-/
namespace JosPrintfmt
open CInt Numerals

/-- `"0123456789abcdef"[d]` -/
def digitChar (d : Nat) : Int :=
  [0x30, 0x31, 0x32, 0x33, 0x34, 0x35, 0x36, 0x37, 0x38, 0x39, 0x61, 0x62, 0x63, 0x64, 0x65, 0x66].getD d 0

/-- `while (--width > 0) putch(padc, putdat)` -/
def padLoop (padc width : Int) : List Int :=
  if 0 < int32 (width - 1) then padc :: padLoop padc (int32 (width - 1)) else []
termination_by (int32 (width - 1)).toNat
decreasing_by
  rename_i more
  have range := int32_range (width - 1)
  unfold InRange at range
  rw [int32_of_range ⟨by omega, by omega⟩]
  omega

/-- The characters that `printnum` puts out. The bases of its callers are 8, 10 and 16. -/
def printnum (num base : Nat) (valid : 1 < base) (width padc : Int) : List Int :=
  (if base ≤ num then printnum (num / base) base valid (int32 (width - 1)) padc else padLoop padc width) ++ [digitChar (num % base)]
termination_by num
decreasing_by exact Nat.div_lt_self (by omega) valid

/-- The value of a digit in bases up to 36. -/
def digitOf (c : Int) : Option Int :=
  if 0x30 ≤ c ∧ c ≤ 0x39 then some (c - 0x30)
  else if 0x61 ≤ c ∧ c ≤ 0x7a then some (c - 0x61 + 10)
  else if 0x41 ≤ c ∧ c ≤ 0x5a then some (c - 0x41 + 10)
  else none

/-- The loop of `strtol` over the digits: the value, and where it stops. -/
def digitsLoop (base : Int) : Int → List Int → Int × List Int
  | val, [] => (val, [])
  | val, c :: s =>
    match digitOf c with
    | none => (val, c :: s)
    | some dig => if base ≤ dig then (val, c :: s) else digitsLoop base (int32 (val * base + dig)) s

def space : Int := 0x20

def tab : Int := 9

def plus : Int := 0x2b

def minus : Int := 0x2d

def zero : Int := 0x30

def lowerX : Int := 0x78

/-- `strtol(s, &endptr, base)`: its value and the string at `endptr`. -/
def strtol (s : List Int) (base : Int) : Int × List Int :=
  -- gobble initial whitespace
  let s := s.dropWhile fun c => c = space ∨ c = tab
  -- plus/minus sign
  let (s, neg) := if s.head? = some plus then (s.tail, false) else if s.head? = some minus then (s.tail, true) else (s, false)
  -- hex or octal base prefix
  let (s, base) :=
    if (base = 0 ∨ base = 16) ∧ s.head? = some zero ∧ s.tail.head? = some lowerX then (s.tail.tail, 16)
    else if base = 0 ∧ s.head? = some zero then (s.tail, 8)
    else if base = 0 then (s, 10)
    else (s, base)
  -- digits
  let (val, endptr) := digitsLoop base 0 s
  (if neg then int32 (-val) else val, endptr)

section Printnum
variable {num base : Nat} {width padc : Int}

theorem padLoop_eq (padc width : Int) : padLoop padc width = List.replicate (int32 (width - 1)).toNat padc := by
  induction width using padLoop.induct with
  | case1 width more ih =>
    have range := int32_range (width - 1)
    unfold InRange at range
    have before : int32 (int32 (width - 1) - 1) = int32 (width - 1) - 1 := int32_of_range ⟨by omega, by omega⟩
    rw [padLoop, if_pos more, ih, before]
    rw [show (int32 (width - 1)).toNat = (int32 (width - 1) - 1).toNat + 1 by omega, List.replicate_succ]
  | case2 width done =>
    rw [padLoop, if_neg done, Int.toNat_of_nonpos (by omega), List.replicate_zero]

/-- Each digit before the last takes one off the width, and the padding is decided at the first. -/
theorem printnum_eq (valid : 1 < base) (num : Nat) (width padc : Int) : printnum num base valid width padc =
    List.replicate (int32 (width - (numeral base num).length)).toNat padc ++ (numeral base num).map digitChar := by
  induction num using Nat.strong_induction_on generalizing width with
  | h num ih =>
    rw [printnum]
    by_cases large : base ≤ num
    · have shorter : num / base < num := Nat.div_lt_self (by omega) valid
      rw [if_pos large, ih _ shorter, numeral_step valid large, int32_sub, List.map_append, List.append_assoc, List.length_append]
      congr 4
      push_cast
      simp only [List.length_singleton]
      omega
    · have last : num % base = num := Nat.mod_eq_of_lt (by omega)
      rw [if_neg large, padLoop_eq, numeral_small (by omega), last]
      rfl

end Printnum

section Strtol
variable {base : Nat}

theorem digitOf_digitChar {d : Nat} (small : d < 16) : digitOf (digitChar d) = some (d : Int) := by
  interval_cases d <;> rfl

theorem digitsLoop_value (base16 : base ≤ 16) (some : 0 < base) (digits : List Nat) (each : ∀ d ∈ digits, d < base) (v : Nat)
    (fits : value base v digits < 2 ^ 31) :
    digitsLoop base v (digits.map digitChar) = ((value base v digits : Int), []) := by
  induction digits generalizing v with
  | nil => rfl
  | cons d digits ih =>
    have small := each d List.mem_cons_self
    rw [value_cons] at fits ⊢
    have step := Nat.lt_of_le_of_lt (le_value some digits (v * base + d)) fits
    have next : int32 ((v : Int) * base + d) = ((v * base + d : Nat) : Int) := by
      rw [← Int.natCast_mul, ← Int.natCast_add]
      refine int32_of_range ⟨?_, ?_⟩
      · omega
      · exact_mod_cast step
    rw [List.map_cons, digitsLoop, digitOf_digitChar (by omega)]
    dsimp only
    rw [if_neg (by omega), next]
    exact ih (fun e member => each e (List.mem_cons_of_mem d member)) _ fits

/-- The characters of digits are none of the others that `strtol` looks for. -/
theorem digitChar_other {d : Nat} (small : d < 16) :
    digitChar d ≠ space ∧ digitChar d ≠ tab ∧ digitChar d ≠ plus ∧ digitChar d ≠ minus ∧ digitChar d ≠ lowerX := by
  interval_cases d <;> decide

theorem strtol_digits {d : Nat} {digits : List Nat} (each : ∀ e ∈ d :: digits, e < 16) (base : Int) (given : base ≠ 0) :
    strtol ((d :: digits).map digitChar) base = digitsLoop base 0 ((d :: digits).map digitChar) := by
  obtain ⟨noSpace,noTab,noPlus,noMinus,_⟩ := digitChar_other (each d List.mem_cons_self)
  have second : (digits.map digitChar).head? ≠ some lowerX := by
    cases digits with
    | nil => simp
    | cons e digits =>
      obtain ⟨_,_,_,_,noX⟩ := digitChar_other (each e (List.mem_cons_of_mem d List.mem_cons_self))
      simpa using noX
  have skip : ((d :: digits).map digitChar).dropWhile (fun c => decide (c = space ∨ c = tab)) = (d :: digits).map digitChar :=
    List.dropWhile_cons_of_neg (by simp [noSpace, noTab])
  have sign : ¬ some (digitChar d) = some plus := fun same => noPlus (Option.some.inj same)
  have sign' : ¬ some (digitChar d) = some minus := fun same => noMinus (Option.some.inj same)
  have hex : ¬ ((base = 0 ∨ base = 16) ∧ some (digitChar d) = some zero ∧ (digits.map digitChar).head? = some lowerX) :=
    fun all => second all.2.2
  have octal : ¬ (base = 0 ∧ some (digitChar d) = some zero) := fun both => given both.1
  unfold strtol
  dsimp only
  rw [skip, List.map_cons, List.head?_cons, if_neg sign, if_neg sign']
  dsimp only
  rw [List.tail_cons, List.head?_cons, if_neg hex, if_neg octal, if_neg given]
  rfl

theorem strtol_numeral (base16 : base ≤ 16) (valid : 1 < base) {num : Nat} (fits : num < 2 ^ 31) :
    strtol ((numeral base num).map digitChar) base = ((num : Int), []) := by
  have each := numeral_lt (n := num) valid
  have whole := value_numeral base num
  have more := numeral_pos base num
  cases digits : numeral base num with
  | nil =>
    rw [digits] at more
    cases more
  | cons d rest =>
    rw [digits] at each whole
    rw [strtol_digits (fun e member => Nat.lt_of_lt_of_le (each e member) base16) base (by omega)]
    have loop := digitsLoop_value base16 (by omega) (d :: rest) each 0 (by omega)
    rw [whole] at loop
    exact loop

end Strtol

/-- `printnum` pads the digits to the width, as long as the width less the number of digits is an
    `int`; and `strtol` reads the digits of a number that a `long` can have. -/
theorem printnum_strtol {base : Nat} (valid : 1 < base) (base16 : base ≤ 16) {num : Nat} (unsigned : num < 2 ^ 64) :
    (∀ width padc, InRange width → (printnum num base valid width padc =
        List.replicate (width - (numeral base num).length).toNat padc ++ (numeral base num).map digitChar ↔
      -2 ^ 31 ≤ width - (numeral base num).length)) ∧
    (num < 2 ^ 31 → strtol ((numeral base num).map digitChar) base = ((num : Int), [])) := by
  refine ⟨fun width padc range => ?_, fun fits => strtol_numeral base16 valid fits⟩
  have short : (numeral base num).length ≤ 64 :=
    numeral_length_le valid (by decide) (Nat.lt_of_lt_of_le unsigned (Nat.pow_le_pow_left valid 64))
  obtain ⟨low,high⟩ := range
  rw [printnum_eq, List.append_left_inj]
  constructor
  · intro same
    have count := congrArg List.length same
    rw [List.length_replicate, List.length_replicate] at count
    have wrapped := int32_range (width - (numeral base num).length)
    unfold InRange at wrapped
    by_contra below
    rw [int32_wrap (by omega) (by omega)] at count
    omega
  · intro fits
    rw [int32_of_range ⟨fits, by omega⟩]

theorem printnum_strtol_hundred : printnum 100 10 (by decide) 5 0x20 = [0x20, 0x20, 0x31, 0x30, 0x30] ∧
    strtol [0x31, 0x30, 0x30] 10 = (100, []) := by
  have digits : numeral 10 100 = [1, 0, 0] := by
    rw [numeral_step (by decide) (by decide), numeral_step (by decide) (by decide), numeral_small (by decide)]
    rfl
  have both := @printnum_strtol 10 (by decide) (by decide) 100 (by decide)
  rw [digits] at both
  exact ⟨(both.1 5 0x20 ⟨by decide, by decide⟩).mpr (by decide), both.2 (by decide)⟩

/-- With the least `int` for a width, the first step down wraps, and nearly 2^31 pad characters come out
    before the one digit. -/
theorem printnum_wraps : printnum 0 10 (by decide) (-2 ^ 31) 0x20 ≠
    List.replicate (-2 ^ 31 - ((numeral 10 0).length : Int)).toNat 0x20 ++ (numeral 10 0).map digitChar := by
  intro same
  have count := congrArg List.length same
  rw [printnum_eq, List.length_append, List.length_append, List.length_replicate, List.length_replicate] at count
  revert count
  decide

end JosPrintfmt
