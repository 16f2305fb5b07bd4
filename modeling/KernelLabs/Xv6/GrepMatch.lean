import KernelLabs.Lib.Patterns

/-!
The matcher of `grep`. A pattern is a sequence of letters, `.` standing for any letter and `*`
repeating the letter before it; `^` in front and `$` at the end tie it to the ends of the text.
-/
namespace Xv6Grep
open Patterns

/-- What a C string holds before its NUL. -/
abbrev Text : Type := List (BitVec 8)

def caret : BitVec 8 := 0x5e#8

def dollar : BitVec 8 := 0x24#8

def dot : BitVec 8 := 0x2e#8

def star : BitVec 8 := 0x2a#8

mutual

/-- Searches for `re` at the beginning of `text`. -/
def matchhere (re text : Text) : Bool :=
  match re with
  | [] => true
  | c :: re =>
    if re.head? = some star then matchstar c re.tail text
    else if c = dollar ∧ re = [] then text.isEmpty
    else
      match text with
      | [] => false
      | t :: text => if c = dot ∨ c = t then matchhere re text else false
termination_by (re.length, text.length, 0)

/-- Searches for `c*re` at the beginning of `text`. -/
def matchstar (c : BitVec 8) (re text : Text) : Bool :=
  if matchhere re text then true
  else
    match text with
    | [] => false
    | t :: text => if t = c ∨ c = dot then matchstar c re text else false
termination_by (re.length, text.length, 1)

end

/-- The loop of `match`, which looks at the empty string too. -/
def matchanywhere (re : Text) : Text → Bool
  | [] => matchhere re []
  | t :: text => if matchhere re (t :: text) then true else matchanywhere re text

/-- `match(re, text)`. -/
def matchText (re text : Text) : Bool :=
  match re with
  | c :: rest => if c = caret then matchhere rest text else matchanywhere re text
  | [] => matchanywhere re text

section Meaning

/-- The letters that a letter of a pattern stands for. -/
def letters (c : BitVec 8) : Set (BitVec 8) := {b | c = dot ∨ c = b}

/-- The places of a pattern, behind its `^`. -/
def items : Text → List (Item (BitVec 8))
  | [] => []
  | [c] => if c = dollar then [] else [⟨letters c, false⟩]
  | c :: d :: re => if d = star then ⟨letters c, true⟩ :: items re else ⟨letters c, false⟩ :: items (d :: re)

/-- The pattern is tied to the beginning of the text. -/
def First (re : Text) : Prop := re.head? = some caret

/-- The pattern is tied to the end of the text. -/
def Last (re : Text) : Prop := re.getLast? = some dollar

/-- The language that a pattern denotes. -/
def denotes (re : Text) : Language (BitVec 8) := language (items (if re.head? = some caret then re.tail else re))

end Meaning

section Here
variable {re text : Text} {c d : BitVec 8}

theorem matchhere_nil : matchhere [] text = true := by
  unfold matchhere
  rfl

theorem matchhere_star : matchhere (c :: star :: re) text = matchstar c re text := by
  rw [matchhere.eq_def]
  dsimp only
  rw [List.head?_cons, if_pos rfl, List.tail_cons]

theorem matchhere_dollar : matchhere [dollar] text = text.isEmpty := by
  rw [matchhere.eq_def]
  simp

theorem matchhere_single (plain : re.head? ≠ some star) (inner : ¬(c = dollar ∧ re = [])) :
    matchhere (c :: re) text = true ↔ ∃ t rest, text = t :: rest ∧ t ∈ letters c ∧ matchhere re rest = true := by
  rw [matchhere.eq_def]
  dsimp only
  rw [if_neg plain, if_neg inner]
  cases text with
  | nil => simp
  | cons t text =>
    unfold letters
    by_cases same : c = dot ∨ c = t
    · simp [same]
    · simp [same]

theorem last_cons (other : re = [] → c ≠ dollar) : Last (c :: re) ↔ Last re := by
  unfold Last
  cases re with
  | nil => exact ⟨fun last => absurd (Option.some.inj last) (other rfl), fun last => by cases last⟩
  | cons d re => rw [List.getLast?_cons_cons]

theorem last_more : Last (c :: d :: re) ↔ Last (d :: re) := last_cons fun none => absurd none (List.cons_ne_nil d re)

theorem last_star : Last (c :: star :: re) ↔ Last re := by
  rw [last_more, last_cons fun _ => by decide]

/-- `c*` reads any number of letters and then the rest. -/
theorem matchstar_begins {L : Language (BitVec 8)} {last : Prop}
    (rest : ∀ text, matchhere re text = true ↔ Begins L last text) (text : Text) :
    matchstar c re text = true ↔ Begins (KStar.kstar (single (letters c)) * L) last text := by
  induction text with
  | nil =>
    rw [begins_star_nil, ← rest, matchstar]
    simp
  | cons t text ih =>
    rw [begins_star_cons, ← rest, ← ih, matchstar]
    have letter : t ∈ letters c ↔ t = c ∨ c = dot := by
      unfold letters
      rw [Set.mem_ofPred_eq, or_comm, eq_comm]
    rw [letter]
    by_cases here : matchhere re (t :: text) = true
    · simp [here]
    · simp [here]

theorem matchhere_begins (re : Text) : ∀ text, matchhere re text = true ↔ Begins (language (items re)) (Last re) text := by
  induction re using items.induct with
  | case1 =>
    intro text
    rw [matchhere_nil, items, language_nil, begins_one]
    simp [Last]
  | case2 =>
    intro text
    rw [matchhere_dollar, items, if_pos rfl, language_nil, begins_one, List.isEmpty_iff]
    simp [Last]
  | case3 c plain =>
    intro text
    have open' : ¬ Last [c] := fun last => plain (Option.some.inj last)
    rw [matchhere_single (by simp) (fun both => plain both.1), items, if_neg plain, language_cons]
    simp only [matchhere_nil, Item.language, language_nil, Bool.false_eq_true, ↓reduceIte, begins_single, begins_one, open',
      false_imp_iff]
  | case4 c re ih =>
    intro text
    rw [matchhere_star, matchstar_begins ih text, items, if_pos rfl, language_cons]
    simp only [Item.language, ↓reduceIte, last_star]
  | case5 c d re plain ih =>
    intro text
    rw [matchhere_single (by simp [plain]) (by simp), items, if_neg plain, language_cons]
    simp only [ih, Item.language, Bool.false_eq_true, ↓reduceIte, begins_single, last_more]

theorem matchanywhere_iff (re text : Text) :
    matchanywhere re text = true ↔ ∃ before rest, text = before ++ rest ∧ matchhere re rest = true := by
  induction text with
  | nil =>
    simp [matchanywhere]
  | cons t text ih =>
    have step : matchanywhere re (t :: text) = true ↔ matchhere re (t :: text) = true ∨ matchanywhere re text = true := by
      rw [matchanywhere]
      by_cases here : matchhere re (t :: text) = true
      · simp [here]
      · simp [here]
    rw [step, ih]
    constructor
    · rintro (here | ⟨before,rest,rfl,here⟩)
      · exact ⟨[], t :: text, rfl, here⟩
      · exact ⟨t :: before, rest, rfl, here⟩
    · rintro ⟨before,rest,split,here⟩
      cases before with
      | nil =>
        left
        rw [split]
        exact here
      | cons b before =>
        obtain ⟨rfl,rfl⟩ := List.cons.inj split
        exact Or.inr ⟨before, rest, rfl, here⟩

end Here

/-- The matcher finds a word of the language that the pattern denotes, and finds one wherever there is
    one. -/
theorem match_decides (re text : Text) : matchText re text = true ↔ Occurs (denotes re) (First re) (Last re) text := by
  rw [occurs_iff]
  unfold denotes First
  cases re with
  | nil =>
    unfold matchText
    rw [matchanywhere_iff]
    simp [matchhere_begins]
  | cons c re =>
    unfold matchText
    simp only [List.head?_cons, Option.some.injEq, List.tail_cons]
    by_cases front : c = caret
    · have inner : Last (c :: re) ↔ Last re := by
        rw [front]
        exact last_cons fun _ => by decide
      rw [if_pos front, if_pos front, matchhere_begins, inner]
      simp [front]
    · rw [if_neg front, if_neg front, matchanywhere_iff]
      simp [front, matchhere_begins]

/-- `^a.*b$` is found in `aab` and not in `caab`. -/
example : matchText [caret, 0x61#8, dot, star, 0x62#8, dollar] [0x61#8, 0x61#8, 0x62#8] = true ∧
    matchText [caret, 0x61#8, dot, star, 0x62#8, dollar] [0x63#8, 0x61#8, 0x61#8, 0x62#8] = false := by
  simp [matchText, matchhere, matchstar, caret, dot, star, dollar]

end Xv6Grep
