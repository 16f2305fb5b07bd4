import KernelLabs.Xv6.Sh

/-!
The tokens of a command line, and how `gettoken` and `peek` read them.
-/
namespace Xv6Sh
open CommandLines

section Tokens

/-- The token that starts with `c`, and what is behind it. -/
def token (c : BitVec 8) (cs : Text) : Token Text × Text :=
  if c = code '|' then (.pipe, cs)
  else if c = code '(' then (.left, cs)
  else if c = code ')' then (.right, cs)
  else if c = code ';' then (.semi, cs)
  else if c = code '&' then (.amp, cs)
  else if c = code '<' then (.redirect .input, cs)
  else if c = code '>' then
    if cs.head? = some (code '>') then (.redirect .append, cs.tail) else (.redirect .output, cs)
  else (.word (c :: cs.takeWhile wordChar), cs.dropWhile wordChar)

theorem token_shorter (c : BitVec 8) (cs : Text) : (token c cs).2.length ≤ cs.length := by
  have words := (List.dropWhile_suffix (l := cs) wordChar).length_le
  unfold token
  split_ifs <;> simp [words]

/-- The longest tokens, with whitespace between them. -/
def tokens : Text → List (Token Text)
  | [] => []
  | c :: cs => if white c then tokens cs else (token c cs).1 :: tokens (token c cs).2
termination_by cs => cs.length
decreasing_by
  · exact Nat.lt_succ_self _
  · exact Nat.lt_succ_of_le (token_shorter c cs)

theorem tokens_skip (cs : Text) : tokens (cs.dropWhile white) = tokens cs := by
  induction cs with
  | nil => rfl
  | cons c cs ih =>
    rw [List.dropWhile_cons]
    split
    · rename_i blank
      rw [ih, tokens, if_pos blank]
    · rfl

end Tokens

section Scans
variable {str : Text} {s left : Nat}

theorem deref_eq (str : Text) (s : Nat) : deref str s = (str.drop s).head?.getD 0#8 := by
  rw [deref, List.getD_eq_getElem?_getD, List.head?_drop]

theorem deref_cons {c : BitVec 8} {cs : Text} (ahead : str.drop s = c :: cs) : deref str s = c := by
  rw [deref_eq, ahead]
  rfl

theorem drop_succ {c : BitVec 8} {cs : Text} (ahead : str.drop s = c :: cs) : str.drop (s + 1) = cs := by
  rw [← List.tail_drop, ahead]
  rfl

theorem scan_eq (p : BitVec 8 → Bool) (ahead : str.length - s = left) :
    scan p str left s = s + ((str.drop s).takeWhile p).length := by
  induction left generalizing s with
  | zero =>
    rw [List.drop_eq_nil_of_le (by omega)]
    rfl
  | succ left ih =>
    have more : s < str.length := by omega
    have here := List.drop_eq_getElem_cons more
    rw [scan, deref_cons here, here, List.takeWhile_cons]
    split
    · rw [ih (by omega), List.length_cons]
      omega
    · rfl

theorem drop_scan (p : BitVec 8 → Bool) (str : Text) (s : Nat) :
    str.drop (scan p str (str.length - s) s) = (str.drop s).dropWhile p := by
  rw [scan_eq p rfl, ← List.drop_drop]
  nth_rewrite 2 [← List.takeWhile_append_dropWhile (p := p) (l := str.drop s)]
  rw [List.drop_left]

theorem scan_le (p : BitVec 8 → Bool) (inside : s ≤ str.length) :
    scan p str (str.length - s) s ≤ str.length := by
  have shorter := (List.takeWhile_prefix p (l := str.drop s)).length_le
  rw [List.length_drop] at shorter
  rw [scan_eq p rfl]
  omega

theorem tokens_drop_skip (str : Text) (s : Nat) : tokens (str.drop (skip str s)) = tokens (str.drop s) := by
  rw [skip, drop_scan, tokens_skip]

/-- What is ahead behind the whitespace. -/
theorem skip_cases (str : Text) (s : Nat) : str.drop (skip str s) = [] ∨
    ∃ c cs, str.drop (skip str s) = c :: cs ∧ white c = false := by
  have stops := List.head?_dropWhile_not white (str.drop s)
  rw [skip, drop_scan]
  cases ahead : (str.drop s).dropWhile white with
  | nil => exact Or.inl rfl
  | cons c cs =>
    rw [ahead] at stops
    exact Or.inr ⟨c, cs, rfl, by simpa using stops⟩

end Scans

/-- The word that was read. It ends in front of a character that is in no word. -/
structure Reads (str : Text) (w : Span) (x : Text) : Prop where
  text : str.drop w.q = x ++ str.drop w.eq
  ends : w.eq = w.q + x.length
  inside : w.eq ≤ str.length
  letters : ∀ c ∈ x, wordChar c = true
  stops : ∀ c, str[w.eq]? = some c → wordChar c = false

section Gettoken
variable {str : Text} {s : Nat} {c : BitVec 8} {cs : Text}

/-- What `gettoken` returns for the token. -/
def ret : Token Text → BitVec 8
  | .word _ => code 'a'
  | .redirect .input => code '<'
  | .redirect .output => code '>'
  | .redirect .append => code '+'
  | .pipe => code '|'
  | .amp => code '&'
  | .semi => code ';'
  | .left => code '('
  | .right => code ')'

/-- The first character of the token, or that of a word. -/
def lead : Token Text → BitVec 8
  | .redirect .append => code '>'
  | t => ret t

theorem character_cases (visible : white c = false) : wordChar c = true ∨ c = code '|' ∨ c = code '(' ∨
    c = code ')' ∨ c = code ';' ∨ c = code '&' ∨ c = code '<' ∨ c = code '>' := by
  unfold white at visible
  cases symbol : symbols.contains c with
  | false =>
    left
    rw [wordChar, visible, symbol]
    rfl
  | true =>
    right
    have listed : c ∈ [code '<', code '|', code '>', code '&', code ';', code '(', code ')'] := by
      exact List.contains_iff_mem.mp symbol
    simp only [List.mem_cons, List.not_mem_nil, or_false] at listed
    tauto

theorem letter_ne {d : BitVec 8} (letter : wordChar c = true) (symbol : wordChar d = false) : c ≠ d := by
  rintro rfl
  rw [letter] at symbol
  cases symbol

theorem token_word (letter : wordChar c = true) :
    token c cs = (.word (c :: cs.takeWhile wordChar), cs.dropWhile wordChar) := by
  unfold token
  iterate 7 rw [if_neg (letter_ne letter rfl)]

/-- What `classify` says of the token at `s` and of what is behind it. -/
structure Classified (str : Text) (s : Nat) (t : Token Text) (rest : Text) : Prop where
  ret : (classify str s).1 = ret t
  rest : str.drop (classify str s).2 = rest
  inside : (classify str s).2 ≤ str.length
  word : ∀ x, t = .word x → Reads str ⟨s, (classify str s).2⟩ x

theorem lt_of_drop (ahead : str.drop s = c :: cs) : s < str.length := by
  have nonempty := congrArg List.length ahead
  rw [List.length_drop, List.length_cons] at nonempty
  omega

theorem reads_scan (inside : s ≤ str.length) :
    Reads str ⟨s, scan wordChar str (str.length - s) s⟩ ((str.drop s).takeWhile wordChar) := by
  refine ⟨?_, scan_eq wordChar rfl, scan_le wordChar inside, ?_, ?_⟩
  · rw [drop_scan, List.takeWhile_append_dropWhile]
  · intro c member
    exact List.all_eq_true.mp List.all_takeWhile c member
  · intro c here
    have stops := List.head?_dropWhile_not wordChar (str.drop s)
    rw [← drop_scan, List.head?_drop, here] at stops
    simpa using stops

theorem classify_word (ahead : str.drop s = c :: cs) (char : c ≠ 0#8) (letter : wordChar c = true) :
    Classified str s (.word (c :: cs.takeWhile wordChar)) (cs.dropWhile wordChar) := by
  have value : classify str s = (code 'a', scan wordChar str (str.length - s) s) := by
    unfold classify
    rw [deref_cons ahead]
    dsimp only
    rw [if_neg char, if_neg, if_neg (letter_ne letter rfl)]
    rintro (rfl | rfl | rfl | rfl | rfl | rfl) <;> cases letter
  have rest := drop_scan wordChar str s
  rw [ahead, List.dropWhile_cons_of_pos letter] at rest
  refine ⟨?_, ?_, ?_, ?_⟩
  · rw [value]
    rfl
  · rw [value, rest]
  · rw [value]
    exact scan_le wordChar (Nat.le_of_lt (lt_of_drop ahead))
  · rintro x same
    cases same
    have reads := reads_scan (Nat.le_of_lt (lt_of_drop ahead))
    rw [ahead, List.takeWhile_cons_of_pos letter] at reads
    rw [value]
    exact reads

theorem classify_symbol (ahead : str.drop s = c :: cs) (symbol : c = code '|' ∨ c = code '(' ∨ c = code ')' ∨
    c = code ';' ∨ c = code '&' ∨ c = code '<') : Classified str s (token c cs).1 (token c cs).2 := by
  have next := drop_succ ahead
  have value : classify str s = (c, s + 1) := by
    unfold classify
    rw [deref_cons ahead]
    dsimp only
    rw [if_neg, if_pos symbol]
    rintro rfl
    revert symbol
    decide
  have inside := lt_of_drop ahead
  rcases symbol with rfl | rfl | rfl | rfl | rfl | rfl <;> exact ⟨by rw [value]; rfl, by rw [value]; exact next, by rw [value]; exact inside, nofun⟩

theorem classify_greater (ahead : str.drop s = code '>' :: cs) :
    Classified str s (token (code '>') cs).1 (token (code '>') cs).2 := by
  have next := drop_succ ahead
  have here := deref_cons ahead
  have inside := lt_of_drop ahead
  cases double : decide (cs.head? = some (code '>')) with
  | true =>
    obtain ⟨rest,rfl⟩ := List.head?_eq_some_iff.mp (of_decide_eq_true double)
    have value : classify str s = (code '+', s + 2) := by
      unfold classify
      rw [here, deref_cons next]
      rfl
    exact ⟨by rw [value]; rfl, by rw [value]; exact drop_succ next, by rw [value]; exact lt_of_drop next, nofun⟩
  | false =>
    have single := of_decide_eq_false double
    have value : classify str s = (code '>', s + 1) := by
      have other : deref str (s + 1) ≠ code '>' := by
        rw [deref_eq, next]
        cases first : cs.head? with
        | none => decide
        | some d =>
          rintro rfl
          exact single first
      unfold classify
      rw [here]
      exact if_neg other
    have meaning : token (code '>') cs = (.redirect .output, cs) := if_neg single
    rw [meaning]
    exact ⟨by rw [value]; rfl, by rw [value]; exact next, by rw [value]; exact inside, nofun⟩

theorem classify_spec (ahead : str.drop s = c :: cs) (char : c ≠ 0#8) (visible : white c = false) :
    Classified str s (token c cs).1 (token c cs).2 := by
  rcases character_cases visible with letter | rfl | rfl | rfl | rfl | rfl | rfl | rfl
  · rw [token_word letter]
    exact classify_word ahead char letter
  case inr.inr.inr.inr.inr.inr.inr => exact classify_greater ahead
  all_goals exact classify_symbol ahead (by simp)

theorem character (str : Str) {s : Nat} (ahead : str.text.drop s = c :: cs) : c ≠ 0#8 := by
  rintro rfl
  have member : 0#8 ∈ str.text.drop s := by
    rw [ahead]
    exact List.mem_cons_self
  exact str.ended (List.mem_of_mem_drop member)

theorem tokens_cons (visible : white c = false) : tokens (c :: cs) = (token c cs).1 :: tokens (token c cs).2 := by
  rw [tokens, visible]
  rfl

/-- The tokens that are left at `s`. -/
structure At (str : Str) (s : Nat) (ts : List (Token Text)) : Prop where
  inside : s ≤ str.text.length
  ahead : tokens (str.text.drop s) = ts

theorem At.skipped {str : Str} {s : Nat} {ts : List (Token Text)} (here : At str s ts) :
    At str (skip str.text s) ts :=
  ⟨scan_le white here.inside, by rw [tokens_drop_skip, here.ahead]⟩

theorem gettoken_nil {str : Str} {s : Nat} (here : At str s []) :
    (gettoken str.text s).ret = 0#8 ∧ At str (gettoken str.text s).s [] := by
  rcases skip_cases str.text s with empty | ⟨c,cs,ahead,visible⟩
  · have nul : classify str.text (skip str.text s) = (0#8, skip str.text s) := by
      unfold classify
      rw [deref_eq, empty]
      rfl
    rw [gettoken, nul]
    exact ⟨rfl, here.skipped.skipped⟩
  · have more := here.skipped.ahead
    rw [ahead, tokens_cons visible] at more
    cases more

/-- `gettoken` takes the first token. -/
theorem gettoken_cons {str : Str} {s : Nat} {t : Token Text} {ts : List (Token Text)} (here : At str s (t :: ts)) :
    (gettoken str.text s).ret = ret t ∧ At str (gettoken str.text s).s ts ∧
      ∀ x, t = .word x → Reads str.text (gettoken str.text s).word x := by
  have more := here.skipped.ahead
  rcases skip_cases str.text s with empty | ⟨c,cs,ahead,visible⟩
  · rw [empty, tokens] at more
    cases more
  · rw [ahead, tokens_cons visible] at more
    obtain ⟨rfl,rfl⟩ := List.cons.inj more
    obtain ⟨same,rest,inside,word⟩ := classify_spec ahead (character str ahead) visible
    have behind : At str (classify str.text (skip str.text s)).2 (tokens (token c cs).2) := ⟨inside, by rw [rest]⟩
    exact ⟨same, behind.skipped, word⟩

/-- Whether the first token starts with one of the characters. -/
def starts (toks : Text) : List (Token Text) → Bool
  | [] => false
  | t :: _ => toks.contains (lead t)

theorem unlisted {toks : Text} (listed : ∀ d ∈ toks, wordChar d = false) (letter : wordChar c = true) :
    toks.contains c = false := by
  cases found : toks.contains c with
  | false => rfl
  | true => exact absurd rfl (letter_ne letter (listed c (List.contains_iff_mem.mp found)))

theorem starts_token (toks : Text) (listed : ∀ d ∈ toks, wordChar d = false) (visible : white c = false) :
    toks.contains (lead (token c cs).1) = toks.contains c := by
  rcases character_cases visible with letter | rfl | rfl | rfl | rfl | rfl | rfl | rfl
  · rw [token_word letter, unlisted listed letter]
    exact unlisted listed rfl
  case inr.inr.inr.inr.inr.inr.inr =>
    have arrow : lead (token (code '>') cs).1 = code '>' := by
      change lead (if cs.head? = some (code '>') then (.redirect .append, cs.tail) else (.redirect .output, cs)).1 = _
      split <;> rfl
    rw [arrow]
  all_goals rfl

/-- `peek` looks at the first token only, when no word has one of the characters. -/
theorem peek_spec {str : Str} {s : Nat} {ts : List (Token Text)} (here : At str s ts) (toks : Text)
    (listed : ∀ d ∈ toks, wordChar d = false) :
    ∃ s', peek str.text s toks = (starts toks ts, s') ∧ At str s' ts := by
  refine ⟨_, Prod.ext ?_ rfl, here.skipped⟩
  rw [← here.skipped.ahead, peek]
  rcases skip_cases str.text s with empty | ⟨c,cs,ahead,visible⟩
  · rw [empty, tokens, deref_eq, empty]
    rfl
  · rw [ahead, tokens_cons visible, deref_cons ahead, starts, starts_token toks listed visible]
    simp [character str ahead]

end Gettoken

end Xv6Sh
