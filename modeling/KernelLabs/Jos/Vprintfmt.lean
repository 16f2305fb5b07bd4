import KernelLabs.Jos.Printnum

/-!
Formatted output in JOS (lab-1 `printfmt.c`): `vprintfmt` reads a format and puts out characters.
The format pointer is a place between the characters that are read, last first, and the ones still
to come before the NUL; it can go back. The argument list is typed: to read an argument of another
kind has no result.
-/
namespace JosPrintfmt
open CInt

def code (c : Char) : Int := c.toNat

def text (s : String) : List Int := s.toList.map code

def percent : Int := code '%'

/-- `int`, `long` and pointers have 32 bits, a `long long` has 64. A string is NULL or what stands
    before its NUL. -/
inductive Arg
  | word (w : BitVec 32)
  | longLong (w : BitVec 64)
  | string (p : Option (List Int))

inductive Conversion
  | c | e | s | d | u | o | p | x | percent
deriving DecidableEq

/-- The cases of `switch (ch)`; NUL and all that is not named are `other`. -/
inductive Case
  | minus | zero | digit | star | dot | hash | ell
  | conversion (k : Conversion)
  | other
deriving DecidableEq

def caseOf (ch : Int) : Case :=
  if ch = code '-' then .minus
  else if ch = code '0' then .zero
  else if code '1' ≤ ch ∧ ch ≤ code '9' then .digit
  else if ch = code '*' then .star
  else if ch = code '.' then .dot
  else if ch = code '#' then .hash
  else if ch = code 'l' then .ell
  else if ch = code 'c' then .conversion .c
  else if ch = code 'e' then .conversion .e
  else if ch = code 's' then .conversion .s
  else if ch = code 'd' then .conversion .d
  else if ch = code 'u' then .conversion .u
  else if ch = code 'o' then .conversion .o
  else if ch = code 'p' then .conversion .p
  else if ch = code 'x' then .conversion .x
  else if ch = code '%' then .conversion .percent
  else .other

/-- The variables of one escape. -/
structure Flags where
  padc : Int
  width : Int
  precision : Int
  lflag : Int
  altflag : Bool

def Flags.start : Flags := ⟨space, -1, -1, 0, false⟩

/-- `process_precision:` -/
def Flags.processPrecision (f : Flags) (precision : Int) : Flags :=
  if f.width < 0 then { f with width := precision, precision := -1 } else { f with precision := precision }

/-- The loop over the digits of a width or precision, from the digit `ch` on. -/
def precisionLoop (precision ch : Int) (before after : List Int) : Int × List Int × List Int :=
  let precision := int32 (precision * 10 + ch - zero)
  match after with
  | [] => (precision, before, [])
  | next :: after =>
    if next < zero ∨ code '9' < next then (precision, before, next :: after)
    else precisionLoop precision next (next :: before) after

/-- `for (fmt--; fmt[-1] != '%'; fmt--)`, from the character that was read. -/
def rewind : List Int → List Int → List Int × List Int
  | [], after => ([], after)
  | last :: before, after => if last ≠ percent then rewind before (last :: after) else (last :: before, after)

/-- `va_arg` of 32 bits -/
def vaWord : List Arg → Option (BitVec 32 × List Arg)
  | .word w :: ap => some (w, ap)
  | _ => none

def vaLongLong : List Arg → Option (BitVec 64 × List Arg)
  | .longLong w :: ap => some (w, ap)
  | _ => none

def vaString : List Arg → Option (Option (List Int) × List Arg)
  | .string p :: ap => some (p, ap)
  | _ => none

/-- An integer by its `lflag`, where a `long` is as wide as an `int`. -/
def getInteger (extend : BitVec 32 → BitVec 64) (ap : List Arg) (lflag : Int) : Option (BitVec 64 × List Arg) :=
  if 2 ≤ lflag then vaLongLong ap else (vaWord ap).map fun r => (extend r.1, r.2)

def getuint : List Arg → Int → Option (BitVec 64 × List Arg) := getInteger fun w => w.zeroExtend 64

def getint : List Arg → Int → Option (BitVec 64 × List Arg) := getInteger fun w => w.signExtend 64

/-- `number:` -/
def number (num : BitVec 64) (base : Nat) (valid : 1 < base) (f : Flags) : List Int :=
  printnum num.toNat base valid f.width f.padc

/-- `MAXERROR` of `error.h` -/
def maxError : Int := 7

/-- `error_string[err]`, NULL where the table has no text, and no result outside of the table. -/
def errorString (err : Int) : Option (Option (List Int)) :=
  if err < 0 then none else
    [none, some (text "unspecified error"), some (text "bad environment"), some (text "invalid parameter"),
      some (text "out of memory"), some (text "out of environments"), some (text "segmentation fault")][err.toNat]?

/-- `err >= MAXERROR || (p = error_string[err]) == NULL`, with a NULL for what has no text. -/
def errorText (err : Int) : Option (Option (List Int)) := if maxError ≤ err then some none else errorString err

/-- `strnlen(s, size)`, whose `size` is unsigned. -/
def strnlen (s : List Int) (size : Int) : Nat := min s.length (size % 2 ^ 32).toNat

/-- The loop over the characters of a string: what is put out, and the width that is left. -/
def stringLoop (altflag : Bool) : Int → Int → List Int → List Int × Int
  | _, width, [] => ([], width)
  | precision, width, ch :: p =>
    if precision < 0 ∨ 0 ≤ precision - 1 then
      let shown := if altflag ∧ (ch < code ' ' ∨ code '~' < ch) then code '?' else ch
      let (out, width) := stringLoop altflag (if precision < 0 then precision else precision - 1) (int32 (width - 1)) p
      (shown :: out, width)
    else ([], width)

/-- `case 's'`, with a string that is not NULL. -/
def putString (f : Flags) (p : List Int) : List Int :=
  let padded := 0 < f.width ∧ f.padc ≠ minus
  let width := if padded then int32 (f.width - strnlen p f.precision) else f.width
  let lead := if padded then List.replicate width.toNat f.padc else []
  -- the padding loop counts a positive width down to 0
  let width := if padded then min width 0 else width
  let (out, width) := stringLoop f.altflag f.precision width p
  lead ++ out ++ List.replicate width.toNat space

variable (printfmt : List Int → List Arg → Option (List Int)) in
/-- The cases that put something out and end the escape: the characters, and the arguments left. -/
def convert (f : Flags) (ap : List Arg) : Conversion → Option (List Int × List Arg)
  | .c => do
    let (w, ap) ← vaWord ap
    return ([w.toInt], ap)
  | .e => do
    let (w, ap) ← vaWord ap
    let err := if w.toInt < 0 then int32 (-w.toInt) else w.toInt
    let p ← errorText err
    let out ← match p with
      | none => printfmt (text "error %d") [.word (BitVec.ofInt 32 err)]
      | some p => printfmt (text "%s") [.string (some p)]
    return (out, ap)
  | .s => do
    let (p, ap) ← vaString ap
    return (putString f (p.getD (text "(null)")), ap)
  | .d => do
    let (num, ap) ← getint ap f.lflag
    if num.toInt < 0 then return (minus :: number (-num) 10 (by decide) f, ap)
    else return (number num 10 (by decide) f, ap)
  | .u => do
    let (num, ap) ← getuint ap f.lflag
    return (number num 10 (by decide) f, ap)
  | .o => do
    let (num, ap) ← getuint ap f.lflag
    return (number num 8 (by decide) f, ap)
  | .p => do
    let (w, ap) ← vaWord ap
    return (zero :: lowerX :: number (w.zeroExtend 64) 16 (by decide) f, ap)
  | .x => do
    let (num, ap) ← getuint ap f.lflag
    return (number num 16 (by decide) f, ap)
  | .percent => return ([percent], ap)

/-- What an escape leaves: the characters it put out, the format pointer and the arguments. -/
structure Turn where
  out : List Int
  before : List Int
  after : List Int
  ap : List Arg

/-- unrecognized escape sequence - just print it literally -/
def literally (before after : List Int) (ap : List Arg) : Turn :=
  let (before, after) := rewind before after
  ⟨[percent], before, after, ap⟩

theorem precisionLoop_length (precision ch : Int) (before after : List Int) :
    (precisionLoop precision ch before after).2.2.length ≤ after.length := by
  induction after generalizing precision ch before with
  | nil => exact Nat.le_refl 0
  | cons next after ih =>
    unfold precisionLoop
    dsimp only
    split
    · exact Nat.le_refl _
    · exact Nat.le_succ_of_le (ih _ _ _)

variable (printfmt : List Int → List Arg → Option (List Int)) in
/-- `reswitch:` -/
def reswitch (f : Flags) (before after : List Int) (ap : List Arg) : Option Turn :=
  match after with
  | [] => some (literally before [] ap)
  | ch :: after =>
    match caseOf ch with
    | .minus => reswitch { f with padc := minus } (ch :: before) after ap
    | .zero => reswitch { f with padc := zero } (ch :: before) after ap
    | .digit =>
      let loop := precisionLoop 0 ch (ch :: before) after
      reswitch (f.processPrecision loop.1) loop.2.1 loop.2.2 ap
    | .star =>
      match ap with
      | .word w :: ap => reswitch (f.processPrecision w.toInt) (ch :: before) after ap
      | _ => none
    | .dot => reswitch (if f.width < 0 then { f with width := 0 } else f) (ch :: before) after ap
    | .hash => reswitch { f with altflag := true } (ch :: before) after ap
    | .ell => reswitch { f with lflag := int32 (f.lflag + 1) } (ch :: before) after ap
    | .conversion k => (convert printfmt f ap k).map fun r => ⟨r.1, ch :: before, after, r.2⟩
    | .other => some (literally before (ch :: after) ap)
termination_by after.length
decreasing_by
  all_goals first
    | exact Nat.lt_succ_of_le (precisionLoop_length 0 ch _ _)
    | exact Nat.lt_succ_self _

/-- `vprintfmt(putch, putdat, fmt, ap)`: the characters that `putch` is given, in at most `fuel` turns
    of the loop. -/
def vprintfmt : Nat → List Int → List Int → List Arg → Option (List Int)
  | 0, _, _, _ => none
  | _ + 1, _, [], _ => some []
  | fuel + 1, before, ch :: after, ap =>
    if ch ≠ percent then do
      let out ← vprintfmt fuel (ch :: before) after ap
      return ch :: out
    else do
      let turn ← reswitch (vprintfmt fuel []) Flags.start (ch :: before) after ap
      let out ← vprintfmt fuel turn.before turn.after turn.ap
      return turn.out ++ out

end JosPrintfmt
