import KernelLabs.Jos.Vprintfmt

/-!
Formats and their arguments in JOS (lab-1 `printfmt.c`): which arguments a format asks for, and that
with them `vprintfmt` comes to an end on every format. The flags of an escape are a run of characters
without a `%`, so that going back ends behind the `%` that began it.
-/
namespace JosPrintfmt
open CInt

/-- The kinds of argument: `error` is an `int` for `%e`, which has an opposite. -/
inductive Kind
  | word | error | longLong | string

def Arg.Is : Kind → Arg → Prop
  | .word, .word _ => True
  | .error, .word w => w.toInt ≠ -2 ^ 31
  | .longLong, .longLong _ => True
  | .string, .string _ => True
  | _, _ => False

/-- The argument list begins with arguments of these kinds. -/
def Matches : List Kind → List Arg → Prop
  | [], _ => True
  | kind :: kinds, arg :: ap => arg.Is kind ∧ Matches kinds ap
  | _ :: _, [] => False

def Conversion.kinds (lflag : Int) : Conversion → List Kind
  | .c | .p => [.word]
  | .e => [.error]
  | .s => [.string]
  | .d | .u | .o | .x => [if 2 ≤ lflag then .longLong else .word]
  | .percent => []

/-- The arguments that a format asks for; inside of an escape with its `lflag`. -/
def signature : Option Int → List Int → List Kind
  | _, [] => []
  | none, ch :: fmt => signature (if ch = percent then some 0 else none) fmt
  | some lflag, ch :: fmt =>
    match caseOf ch with
    | .minus | .zero | .digit | .dot | .hash => signature (some lflag) fmt
    | .star => .word :: signature (some lflag) fmt
    | .ell => signature (some (int32 (lflag + 1))) fmt
    | .conversion k => k.kinds lflag ++ signature none fmt
    | .other => signature none fmt

example : signature none (text "%-5d %s %*lx 50%") = [.word, .string, .word, .word] := rfl

/-- The characters that stand between the `%` and the conversion. -/
def isFlag (ch : Int) : Bool :=
  match caseOf ch with
  | .conversion _ | .other => false
  | _ => true

def stars (run : List Int) : Nat := run.countP (caseOf · = .star)

def longs (lflag : Int) (run : List Int) : Int :=
  run.foldl (fun lflag ch => if caseOf ch = .ell then int32 (lflag + 1) else lflag) lflag

section Arguments
variable {kinds more : List Kind} {ap : List Arg} {lflag : Int}

theorem matches_append : Matches (kinds ++ more) ap ↔ Matches kinds ap ∧ Matches more (ap.drop kinds.length) := by
  induction kinds generalizing ap with
  | nil => simp [Matches]
  | cons kind kinds ih =>
    cases ap with
    | nil => simp [Matches]
    | cons arg ap => simp [Matches, ih, and_assoc]

theorem matches_word (matching : Matches (.word :: kinds) ap) : ∃ w left, ap = .word w :: left ∧ Matches kinds left := by
  match ap, matching with
  | .word w :: left, ⟨_,rest⟩ => exact ⟨w, left, rfl, rest⟩

theorem matches_error (matching : Matches (.error :: kinds) ap) :
    ∃ w left, ap = .word w :: left ∧ w.toInt ≠ -2 ^ 31 ∧ Matches kinds left := by
  match ap, matching with
  | .word w :: left, ⟨small,rest⟩ => exact ⟨w, left, rfl, small, rest⟩

theorem matches_longLong (matching : Matches (.longLong :: kinds) ap) :
    ∃ w left, ap = .longLong w :: left ∧ Matches kinds left := by
  match ap, matching with
  | .longLong w :: left, ⟨_,rest⟩ => exact ⟨w, left, rfl, rest⟩

theorem matches_string (matching : Matches (.string :: kinds) ap) :
    ∃ p left, ap = .string p :: left ∧ Matches kinds left := by
  match ap, matching with
  | .string p :: left, ⟨_,rest⟩ => exact ⟨p, left, rfl, rest⟩

theorem getInteger_matches (extend : BitVec 32 → BitVec 64)
    (matching : Matches ((if 2 ≤ lflag then .longLong else .word) :: kinds) ap) :
    ∃ num left, getInteger extend ap lflag = some (num, left) ∧ Matches kinds left := by
  unfold getInteger
  split at matching
  · rename_i long
    obtain ⟨w,left,rfl,rest⟩ := matches_longLong matching
    exact ⟨w, left, if_pos long, rest⟩
  · rename_i short
    obtain ⟨w,left,rfl,rest⟩ := matches_word matching
    exact ⟨_, left, if_neg short, rest⟩

end Arguments

section Conversions
variable {printfmt printfmt' : List Int → List Arg → Option (List Int)} {f : Flags} {kinds : List Kind} {ap : List Arg}

/-- The formats of `%e`. -/
def Prints (printfmt : List Int → List Arg → Option (List Int)) : Prop :=
  (∀ w, ∃ out, printfmt (text "error %d") [.word w] = some out) ∧ ∀ p, ∃ out, printfmt (text "%s") [.string p] = some out

theorem errorText_some {err : Int} (low : 0 ≤ err) : ∃ p, errorText err = some p := by
  unfold errorText
  by_cases known : maxError ≤ err
  · exact ⟨none, if_pos known⟩
  · unfold maxError at known
    interval_cases err <;> exact ⟨_, rfl⟩

theorem convert_matches (k : Conversion) (prints : k = .e → Prints printfmt) (matching : Matches (k.kinds f.lflag ++ kinds) ap) :
    ∃ out left, convert printfmt f ap k = some (out, left) ∧ Matches kinds left := by
  cases k with
  | c =>
    obtain ⟨w,left,rfl,rest⟩ := matches_word matching
    exact ⟨_, left, rfl, rest⟩
  | e =>
    obtain ⟨w,left,rfl,small,rest⟩ := matches_error matching
    obtain ⟨number,string⟩ := prints rfl
    have range := BitVec.toInt_lt (x := w)
    have range' := BitVec.le_toInt (x := w)
    generalize positive : (if w.toInt < 0 then int32 (-w.toInt) else w.toInt) = err
    have low : 0 ≤ err := by
      rw [← positive]
      split
      · rw [int32_of_range ⟨by omega, by omega⟩]
        omega
      · omega
    obtain ⟨p,entry⟩ := errorText_some low
    cases p with
    | none =>
      obtain ⟨out,printed⟩ := number (BitVec.ofInt 32 err)
      exact ⟨out, left, by simp [convert, vaWord, positive, entry, printed], rest⟩
    | some p =>
      obtain ⟨out,printed⟩ := string (some p)
      exact ⟨out, left, by simp [convert, vaWord, positive, entry, printed], rest⟩
  | s =>
    obtain ⟨p,left,rfl,rest⟩ := matches_string matching
    exact ⟨_, left, rfl, rest⟩
  | d =>
    obtain ⟨num,left,read,rest⟩ := getInteger_matches (fun w => w.signExtend 64) matching
    by_cases negative : num.toInt < 0
    · exact ⟨_, left, by simp [convert, getint, read, negative]; rfl, rest⟩
    · exact ⟨_, left, by simp [convert, getint, read, negative]; rfl, rest⟩
  | u | o | x =>
    obtain ⟨num,left,read,rest⟩ := getInteger_matches (fun w => w.zeroExtend 64) matching
    exact ⟨_, left, by simp [convert, getuint, read]; rfl, rest⟩
  | p =>
    obtain ⟨w,left,rfl,rest⟩ := matches_word matching
    exact ⟨_, left, rfl, rest⟩
  | percent => exact ⟨_, ap, rfl, matching⟩

end Conversions

section Signature
variable {run rest fmt : List Int} {lflag : Int}

theorem flag_ne_percent {ch : Int} (flag : isFlag ch) : ch ≠ percent := by
  rintro rfl
  exact absurd flag (by decide)

theorem signature_plain (fmt : List Int) (plain : percent ∉ run) : signature none (run ++ fmt) = signature none fmt := by
  induction run with
  | nil => rfl
  | cons ch run ih =>
    have other : ch ≠ percent := fun same => plain (same ▸ List.mem_cons_self)
    rw [List.cons_append, signature, if_neg other]
    exact ih (fun member => plain (List.mem_cons_of_mem ch member))

theorem signature_flags (each : ∀ ch ∈ run, isFlag ch) (lflag : Int) (rest : List Int) : signature (some lflag) (run ++ rest) =
    List.replicate (stars run) .word ++ signature (some (longs lflag run)) rest := by
  induction run generalizing lflag with
  | nil => rfl
  | cons ch run ih =>
    have flag := each ch List.mem_cons_self
    have next := fun lflag => ih (fun c member => each c (List.mem_cons_of_mem ch member)) lflag
    rw [List.cons_append, signature]
    unfold isFlag at flag
    cases which : caseOf ch with
    | conversion k => simp [which] at flag
    | other => simp [which] at flag
    | star => simp [stars, longs, which, next, List.replicate_succ]
    | ell => simp [stars, longs, which, next]
    | minus | zero | digit | dot | hash => simp [stars, longs, which, next]

end Signature

section Reswitch
variable {printfmt printfmt' : List Int → List Arg → Option (List Int)} {run rest back earlier before after : List Int} {ap : List Arg}

def isDigit (ch : Int) : Bool := ¬ (ch < zero ∨ code '9' < ch)

theorem precisionLoop_digits (precision ch : Int) (before after : List Int) : ∃ v, precisionLoop precision ch before after =
    (v, (after.takeWhile isDigit).reverse ++ before, after.dropWhile isDigit) := by
  induction after generalizing precision ch before with
  | nil => exact ⟨_, rfl⟩
  | cons next after ih =>
    unfold precisionLoop
    dsimp only
    by_cases stop : next < zero ∨ code '9' < next
    · have digit : ¬ isDigit next := by simp [isDigit, stop]
      rw [if_pos stop, List.takeWhile_cons_of_neg digit, List.dropWhile_cons_of_neg digit]
      exact ⟨_, rfl⟩
    · have digit : isDigit next := by simp [isDigit, stop]
      rw [if_neg stop, List.takeWhile_cons_of_pos digit, List.dropWhile_cons_of_pos digit, List.reverse_cons, List.append_assoc]
      exact ih _ next (next :: before)

theorem digit_flag {ch : Int} (digit : isDigit ch) : isFlag ch ∧ caseOf ch ≠ .star ∧ caseOf ch ≠ .ell := by
  have range : 0x30 ≤ ch ∧ ch ≤ 0x39 := by
    simp [isDigit, zero, code] at digit
    omega
  obtain ⟨low,high⟩ := range
  interval_cases ch <;> decide

theorem rewind_back (plain : percent ∉ back) (earlier after : List Int) :
    rewind (back ++ percent :: earlier) after = (percent :: earlier, back.reverse ++ after) := by
  induction back generalizing after with
  | nil => exact if_neg (fun other => other rfl)
  | cons last back ih =>
    have other : last ≠ percent := fun same => plain (same ▸ List.mem_cons_self)
    rw [List.cons_append, rewind, if_pos other, ih (fun member => plain (List.mem_cons_of_mem last member))]
    simp

/-- The text does not go on with a flag. -/
def Stops (rest : List Int) : Prop := ∀ ch ∈ rest.head?, isFlag ch = false

theorem takeWhile_stops (stops : Stops rest) (run : List Int) : (run ++ rest).takeWhile isDigit = run.takeWhile isDigit ∧
    (run ++ rest).dropWhile isDigit = run.dropWhile isDigit ++ rest := by
  induction run with
  | nil =>
    cases rest with
    | nil => exact ⟨rfl, rfl⟩
    | cons ch rest =>
      have digit : ¬ isDigit ch := by
        intro digit
        have flag := (digit_flag digit).1
        rw [stops ch rfl] at flag
        cases flag
      exact ⟨List.takeWhile_cons_of_neg digit, List.dropWhile_cons_of_neg digit⟩
  | cons ch run ih =>
    by_cases digit : isDigit ch
    · simp [digit, ih]
    · simp [digit]

theorem stars_cons (ch : Int) (run : List Int) : stars (ch :: run) = stars run + if caseOf ch = .star then 1 else 0 := by
  simp [stars, List.countP_cons]

theorem longs_cons (lflag ch : Int) (run : List Int) :
    longs lflag (ch :: run) = longs (if caseOf ch = .ell then int32 (lflag + 1) else lflag) run := rfl

theorem stars_longs_digits (lflag : Int) (run : List Int) :
    stars (run.dropWhile isDigit) = stars run ∧ longs lflag (run.dropWhile isDigit) = longs lflag run := by
  induction run with
  | nil => exact ⟨rfl, rfl⟩
  | cons ch run ih =>
    by_cases digit : isDigit ch
    · obtain ⟨_,star,ell⟩ := digit_flag digit
      rw [List.dropWhile_cons_of_pos digit, stars_cons, longs_cons, if_neg star, if_neg ell]
      exact ih
    · rw [List.dropWhile_cons_of_neg digit]
      exact ⟨rfl, rfl⟩

theorem reswitch_cons (f : Flags) (before : List Int) (ch : Int) (after : List Int) (ap : List Arg) :
    reswitch printfmt f before (ch :: after) ap =
    match caseOf ch with
    | .minus => reswitch printfmt { f with padc := minus } (ch :: before) after ap
    | .zero => reswitch printfmt { f with padc := zero } (ch :: before) after ap
    | .digit =>
      let loop := precisionLoop 0 ch (ch :: before) after
      reswitch printfmt (f.processPrecision loop.1) loop.2.1 loop.2.2 ap
    | .star =>
      match ap with
      | .word w :: ap => reswitch printfmt (f.processPrecision w.toInt) (ch :: before) after ap
      | _ => none
    | .dot => reswitch printfmt (if f.width < 0 then { f with width := 0 } else f) (ch :: before) after ap
    | .hash => reswitch printfmt { f with altflag := true } (ch :: before) after ap
    | .ell => reswitch printfmt { f with lflag := int32 (f.lflag + 1) } (ch :: before) after ap
    | .conversion k => (convert printfmt f ap k).map fun r => ⟨r.1, ch :: before, after, r.2⟩
    | .other => some (literally before (ch :: after) ap) :=
  reswitch.eq_def printfmt f before (ch :: after) ap

theorem processPrecision_lflag (f : Flags) (precision : Int) : (f.processPrecision precision).lflag = f.lflag := by
  unfold Flags.processPrecision
  split <;> rfl

variable (printfmt) in
/-- The flags of an escape are read one after the other, each `*` with its argument. -/
theorem reswitch_flags (each : ∀ ch ∈ run, isFlag ch) (stops : Stops rest) (f : Flags) (before : List Int)
    (given : Matches (List.replicate (stars run) .word) ap) : ∃ f' : Flags, f'.lflag = longs f.lflag run ∧
    reswitch printfmt f before (run ++ rest) ap = reswitch printfmt f' (run.reverse ++ before) rest (ap.drop (stars run)) := by
  induction length : run.length using Nat.strong_induction_on generalizing run f before ap with
  | h n ih =>
    cases run with
    | nil => exact ⟨f, rfl, rfl⟩
    | cons ch run =>
      have flag := each ch List.mem_cons_self
      have each' : ∀ c ∈ run, isFlag c := fun c member => each c (List.mem_cons_of_mem ch member)
      have shorter : run.length < n := by
        rw [← length]
        exact Nat.lt_succ_self _
      unfold isFlag at flag
      rw [List.cons_append, List.reverse_cons, List.append_assoc]
      -- a flag without an argument changes the variables and goes to the next character
      have next : ∀ g : Flags, caseOf ch ≠ .star → g.lflag = (if caseOf ch = .ell then int32 (f.lflag + 1) else f.lflag) →
          reswitch printfmt f before (ch :: (run ++ rest)) ap = reswitch printfmt g (ch :: before) (run ++ rest) ap →
          ∃ f' : Flags, f'.lflag = longs f.lflag (ch :: run) ∧
            reswitch printfmt f before (ch :: (run ++ rest)) ap =
              reswitch printfmt f' (run.reverse ++ ([ch] ++ before)) rest (ap.drop (stars (ch :: run))) := by
        intro g other same step
        have count : stars (ch :: run) = stars run := by rw [stars_cons, if_neg other, Nat.add_zero]
        rw [count] at given ⊢
        rw [step, longs_cons, ← same]
        exact ih _ shorter each' g (ch :: before) given rfl
      cases which : caseOf ch with
      | conversion k => simp [which] at flag
      | other => simp [which] at flag
      | minus => exact next { f with padc := minus } (by simp [which]) (by simp [which]) (by rw [reswitch_cons, which])
      | zero => exact next { f with padc := zero } (by simp [which]) (by simp [which]) (by rw [reswitch_cons, which])
      | dot =>
        refine next (if f.width < 0 then { f with width := 0 } else f) (by simp [which]) ?_ (by rw [reswitch_cons, which])
        split <;> simp [which]
      | hash => exact next { f with altflag := true } (by simp [which]) (by simp [which]) (by rw [reswitch_cons, which])
      | ell =>
        exact next { f with lflag := int32 (f.lflag + 1) } (by simp [which]) (by simp [which]) (by rw [reswitch_cons, which])
      | star =>
        rw [stars_cons, which, if_pos rfl, List.replicate_succ] at given
        obtain ⟨w,left,rfl,words⟩ := matches_word given
        have step := ih _ shorter each' (f.processPrecision w.toInt) (ch :: before) words rfl
        rw [processPrecision_lflag] at step
        rw [reswitch_cons, which, longs_cons, which, stars_cons, which, if_pos rfl]
        exact step
      | digit =>
        obtain ⟨v,loop⟩ := precisionLoop_digits 0 ch (ch :: before) (run ++ rest)
        obtain ⟨digits,others⟩ := takeWhile_stops stops run
        obtain ⟨sameStars,sameLongs⟩ := stars_longs_digits f.lflag run
        have count : stars (ch :: run) = stars run := by rw [stars_cons, which, if_neg (by simp), Nat.add_zero]
        have whole : (run.dropWhile isDigit).reverse ++ ((run.takeWhile isDigit).reverse ++ (ch :: before)) = run.reverse ++ (ch :: before) := by
          rw [← List.append_assoc, ← List.reverse_append, List.takeWhile_append_dropWhile]
        rw [count, ← sameStars] at given
        have step := ih _ (Nat.lt_of_le_of_lt (List.dropWhile_suffix isDigit).length_le shorter)
          (fun c member => each' c ((List.dropWhile_suffix isDigit).mem member)) (f.processPrecision v)
          ((run.takeWhile isDigit).reverse ++ (ch :: before)) given rfl
        rw [processPrecision_lflag, sameStars, sameLongs, whole] at step
        rw [reswitch_cons, which, longs_cons, which, loop, digits, others, count]
        exact step

theorem stops_cases (stops : Stops rest) : rest = [] ∨ (∃ k ch after, rest = ch :: after ∧ caseOf ch = .conversion k) ∨
    ∃ ch after, rest = ch :: after ∧ caseOf ch = .other := by
  cases rest with
  | nil => exact .inl rfl
  | cons ch after =>
    have stop := stops ch rfl
    unfold isFlag at stop
    cases which : caseOf ch with
    | conversion k => exact .inr (.inl ⟨k, ch, after, rfl, which⟩)
    | other => exact .inr (.inr ⟨ch, after, rfl, which⟩)
    | minus | zero | digit | star | dot | hash | ell => simp [which] at stop

/-- The format does not go on with a flag or a conversion. -/
def Unrecognized (rest : List Int) : Prop := ∀ ch ∈ rest.head?, caseOf ch = .other

theorem unrecognized_stops (unrecognized : Unrecognized rest) : Stops rest := by
  intro ch first
  simp [isFlag, unrecognized ch first]

theorem flags_plain (each : ∀ ch ∈ run, isFlag ch) : percent ∉ run.reverse :=
  fun member => flag_ne_percent (each percent (List.mem_reverse.mp member)) rfl

/-- An escape that is not recognized goes back to the character behind its `%`. -/
theorem reswitch_literally (each : ∀ ch ∈ run, isFlag ch) (unrecognized : Unrecognized rest) (f : Flags) (earlier : List Int)
    (given : Matches (List.replicate (stars run) .word) ap) : reswitch printfmt f (percent :: earlier) (run ++ rest) ap =
    some ⟨[percent], percent :: earlier, run ++ rest, ap.drop (stars run)⟩ := by
  obtain ⟨f',_,flags⟩ := reswitch_flags printfmt each (unrecognized_stops unrecognized) f (percent :: earlier) given
  have back := rewind_back (flags_plain each) earlier rest
  rw [List.reverse_reverse] at back
  rw [flags]
  cases rest with
  | nil =>
    rw [reswitch, literally, back]
  | cons ch after =>
    rw [reswitch_cons, unrecognized ch rfl]
    dsimp only
    rw [literally, back]

/-- With the arguments that the format asks for an escape comes to an end, and the format pointer is not
    before the character behind its `%`. -/
theorem reswitch_ends (prints : Prints printfmt) (earlier fmt : List Int) (matching : Matches (signature (some 0) fmt) ap) :
    ∃ turn, reswitch printfmt Flags.start (percent :: earlier) fmt ap = some turn ∧ turn.after.length ≤ fmt.length ∧
      Matches (signature none turn.after) turn.ap := by
  have split := List.takeWhile_append_dropWhile (p := isFlag) (l := fmt)
  have each : ∀ ch ∈ fmt.takeWhile isFlag, isFlag ch := List.all_eq_true.mp List.all_takeWhile
  have stops : Stops (fmt.dropWhile isFlag) := by
    intro ch first
    have stop := List.head?_dropWhile_not isFlag fmt
    rw [Option.mem_def.mp first] at stop
    exact stop
  generalize fmt.takeWhile isFlag = run at split each
  generalize fmt.dropWhile isFlag = rest at split stops
  subst split
  rw [signature_flags each, matches_append, List.length_replicate] at matching
  obtain ⟨given,matching⟩ := matching
  have plain : percent ∉ run := fun member => flags_plain each (List.mem_reverse.mpr member)
  rcases stops_cases stops with rfl | ⟨k,ch,after,rfl,which⟩ | ⟨ch,after,rfl,which⟩
  · refine ⟨_, reswitch_literally each (by simp [Unrecognized]) _ earlier given, Nat.le_refl _, ?_⟩
    rw [signature_plain _ plain]
    exact trivial
  · obtain ⟨f',lflag,flags⟩ := reswitch_flags printfmt each stops Flags.start (percent :: earlier) given
    rw [signature, which] at matching
    have same : longs 0 run = f'.lflag := lflag.symm
    rw [same] at matching
    obtain ⟨out,left,converted,rest⟩ := convert_matches k (fun _ => prints) matching
    refine ⟨⟨out, ch :: (run.reverse ++ percent :: earlier), after, left⟩, ?_, ?_, rest⟩
    · rw [flags, reswitch_cons, which]
      dsimp only
      rw [converted]
      rfl
    · simp only [List.length_append, List.length_cons]
      omega
  · refine ⟨_, reswitch_literally each (by simpa [Unrecognized] using which) _ earlier given, Nat.le_refl _, ?_⟩
    rw [signature, which] at matching
    have other : ch ≠ percent := by
      rintro rfl
      exact absurd which (by decide)
    rw [signature_plain _ plain, signature, if_neg other]
    exact matching

theorem convert_more (more : ∀ fmt ap out, printfmt fmt ap = some out → printfmt' fmt ap = some out) {f : Flags} {k : Conversion}
    {r : List Int × List Arg} (converted : convert printfmt f ap k = some r) : convert printfmt' f ap k = some r := by
  cases k with
  | e =>
    simp only [convert, Option.bind_eq_bind, Option.bind_eq_some_iff] at converted ⊢
    obtain ⟨w,word,p,entry,done⟩ := converted
    refine ⟨w, word, p, entry, ?_⟩
    cases p with
    | none =>
      obtain ⟨out,printed,done⟩ := Option.bind_eq_some_iff.mp done
      exact Option.bind_eq_some_iff.mpr ⟨out, more _ _ _ printed, done⟩
    | some p =>
      obtain ⟨out,printed,done⟩ := Option.bind_eq_some_iff.mp done
      exact Option.bind_eq_some_iff.mpr ⟨out, more _ _ _ printed, done⟩
  | c | s | d | u | o | p | x | percent => exact converted

/-- An escape that comes to an end does so with a `printfmt` that has more results. -/
theorem reswitch_more (more : ∀ fmt ap out, printfmt fmt ap = some out → printfmt' fmt ap = some out) (f : Flags)
    (before after : List Int) (ap : List Arg) {turn : Turn} (done : reswitch printfmt f before after ap = some turn) :
    reswitch printfmt' f before after ap = some turn := by
  induction f, before, after, ap using reswitch.induct with
  | case1 f before ap =>
    rw [reswitch] at done ⊢
    exact done
  | case5 f before ch after which w ap ih =>
    rw [reswitch_cons, which] at done ⊢
    exact ih done
  | case6 f before ap ch after which other =>
    rw [reswitch_cons, which] at done
    match ap with
    | [] => cases done
    | .word w :: ap => exact (other w ap rfl).elim
    | .longLong w :: ap => cases done
    | .string p :: ap => cases done
  | case2 f before ap ch after which ih | case3 f before ap ch after which ih | case4 f before ap ch after which _ ih
  | case7 f before ap ch after which ih | case8 f before ap ch after which ih | case9 f before ap ch after which ih =>
    rw [reswitch_cons, which] at done ⊢
    exact ih done
  | case10 f before ap ch after k which =>
    rw [reswitch_cons, which] at done ⊢
    obtain ⟨r,converted,done⟩ := Option.map_eq_some_iff.mp done
    exact Option.map_eq_some_iff.mpr ⟨r, convert_more more converted, done⟩
  | case11 f before ap ch after which =>
    rw [reswitch_cons, which] at done ⊢
    exact done

end Reswitch

section Formats
variable {fuel more : Nat} {run rest before fmt out : List Int} {ap : List Arg}

theorem vprintfmt_plain {ch : Int} (other : ch ≠ percent) (fuel : Nat) (before fmt : List Int) (ap : List Arg) :
    vprintfmt (fuel + 1) before (ch :: fmt) ap = (vprintfmt fuel (ch :: before) fmt ap).map (ch :: ·) := by
  rw [vprintfmt, if_pos other]
  cases vprintfmt fuel (ch :: before) fmt ap <;> rfl

theorem vprintfmt_escape (fuel : Nat) (before fmt : List Int) (ap : List Arg) : vprintfmt (fuel + 1) before (percent :: fmt) ap =
    (reswitch (vprintfmt fuel []) Flags.start (percent :: before) fmt ap).bind fun turn =>
      (vprintfmt fuel turn.before turn.after turn.ap).map (turn.out ++ ·) := by
  rw [vprintfmt, if_neg (fun other => other rfl)]
  cases reswitch (vprintfmt fuel []) Flags.start (percent :: before) fmt ap with
  | none => rfl
  | some turn =>
    simp only [Option.bind_eq_bind, Option.bind_some]
    cases vprintfmt fuel turn.before turn.after turn.ap <;> rfl

theorem vprintfmt_more (formatted : vprintfmt fuel before fmt ap = some out) (enough : fuel ≤ more) :
    vprintfmt more before fmt ap = some out := by
  induction fuel generalizing before fmt ap out more with
  | zero => cases formatted
  | succ fuel ih =>
    obtain ⟨more,rfl⟩ : ∃ k, more = k + 1 := ⟨more - 1, by omega⟩
    have enough : fuel ≤ more := by omega
    cases fmt with
    | nil => exact formatted
    | cons ch fmt =>
      by_cases escape : ch = percent
      · subst escape
        rw [vprintfmt_escape] at formatted ⊢
        obtain ⟨turn,escaped,formatted⟩ := Option.bind_eq_some_iff.mp formatted
        obtain ⟨out',formatted,whole⟩ := Option.map_eq_some_iff.mp formatted
        have escaped := reswitch_more (fun _ _ _ printed => ih printed enough) _ _ _ _ escaped
        exact Option.bind_eq_some_iff.mpr ⟨turn, escaped, Option.map_eq_some_iff.mpr ⟨out', ih formatted enough, whole⟩⟩
      · rw [vprintfmt_plain escape] at formatted ⊢
        obtain ⟨out',formatted,whole⟩ := Option.map_eq_some_iff.mp formatted
        exact Option.map_eq_some_iff.mpr ⟨out', ih formatted enough, whole⟩

theorem vprintfmt_run (plain : percent ∉ run) (fuel : Nat) (before fmt : List Int) (ap : List Arg) :
    vprintfmt (fuel + run.length) before (run ++ fmt) ap = (vprintfmt fuel (run.reverse ++ before) fmt ap).map (run ++ ·) := by
  induction run generalizing before with
  | nil => simp
  | cons ch run ih =>
    have other : ch ≠ percent := fun same => plain (same ▸ List.mem_cons_self)
    rw [List.cons_append, List.length_cons, ← Nat.add_assoc, vprintfmt_plain other]
    rw [ih (fun member => plain (List.mem_cons_of_mem ch member)), Option.map_map]
    simp [Function.comp_def]

theorem vprintfmt_conversion {ch : Int} {k : Conversion} {left : List Arg} (which : caseOf ch = .conversion k)
    (converted : convert (vprintfmt (fuel + 1) []) Flags.start ap k = some (out, left)) :
    vprintfmt (fuel + 2) before [percent, ch] ap = some out := by
  rw [vprintfmt_escape, reswitch_cons, which]
  dsimp only
  rw [converted]
  simp [vprintfmt]

/-- The formats of `%e` need eight turns at most. -/
theorem vprintfmt_prints (enough : 8 ≤ fuel) : Prints (vprintfmt fuel []) := by
  constructor
  · intro w
    have given : Matches (Conversion.d.kinds Flags.start.lflag ++ []) [.word w] := by
      simp [Conversion.kinds, Flags.start, Matches, Arg.Is]
    obtain ⟨out,left,converted,_⟩ := convert_matches .d (fun same => by cases same) given
    have parts : text "error %d" = text "error " ++ [percent, code 'd'] := by decide
    have whole : vprintfmt (0 + 2 + (text "error ").length) [] (text "error %d") [.word w] = some (text "error " ++ out) := by
      rw [parts, vprintfmt_run (by decide), vprintfmt_conversion (by decide) converted]
      rfl
    exact ⟨_, vprintfmt_more whole enough⟩
  · intro p
    have given : Matches (Conversion.s.kinds Flags.start.lflag ++ []) [.string p] := ⟨trivial, trivial⟩
    obtain ⟨out,left,converted,_⟩ := convert_matches .s (fun same => by cases same) given
    have parts : text "%s" = [percent, code 's'] := by decide
    have whole : vprintfmt (0 + 2) [] (text "%s") [.string p] = some out := by
      rw [parts, vprintfmt_conversion (by decide) converted]
    exact ⟨_, vprintfmt_more whole (Nat.le_trans (by decide) enough)⟩

/-- With the arguments that it asks for every format comes to an end. -/
theorem vprintfmt_ends (fmt before : List Int) (matching : Matches (signature none fmt) ap) :
    ∃ out, vprintfmt (fmt.length + 9) before fmt ap = some out := by
  induction length : fmt.length using Nat.strong_induction_on generalizing fmt before ap with
  | h n ih =>
    subst length
    cases fmt with
    | nil => exact ⟨_, rfl⟩
    | cons ch fmt =>
      have fuel : (ch :: fmt).length + 9 = fmt.length + 9 + 1 := rfl
      rw [signature] at matching
      by_cases escape : ch = percent
      · subst escape
        rw [if_pos rfl] at matching
        have prints : Prints (vprintfmt (fmt.length + 9) []) := vprintfmt_prints (by omega)
        obtain ⟨turn,escaped,shorter,matching⟩ := reswitch_ends prints before fmt matching
        obtain ⟨out,formatted⟩ := ih turn.after.length (Nat.lt_succ_of_le shorter) turn.after turn.before matching rfl
        have formatted := vprintfmt_more formatted (Nat.add_le_add_right shorter 9)
        refine ⟨turn.out ++ out, ?_⟩
        rw [fuel, vprintfmt_escape, escaped, Option.bind_some, formatted]
        rfl
      · rw [if_neg escape] at matching
        obtain ⟨out,formatted⟩ := ih fmt.length (Nat.lt_succ_self _) fmt (ch :: before) matching rfl
        refine ⟨ch :: out, ?_⟩
        rw [fuel, vprintfmt_plain escape, formatted]
        rfl

/-- An escape that is not recognized is put out as it stands, and its `*` have used up their arguments. -/
theorem vprintfmt_literally (each : ∀ ch ∈ run, isFlag ch) (unrecognized : Unrecognized rest)
    (given : Matches (List.replicate (stars run) .word) ap) (fuel : Nat) (before : List Int) :
    vprintfmt (fuel + run.length + 1) before (percent :: (run ++ rest)) ap =
      (vprintfmt fuel (run.reverse ++ percent :: before) rest (ap.drop (stars run))).map (percent :: run ++ ·) := by
  have plain : percent ∉ run := fun member => flags_plain each (List.mem_reverse.mpr member)
  rw [vprintfmt_escape, reswitch_literally each unrecognized _ before given, Option.bind_some]
  dsimp only
  rw [vprintfmt_run plain, Option.map_map]
  rfl

end Formats

end JosPrintfmt
