import Mathlib.Data.List.Basic

/-!
Command lines over words of any type: what their tokens derive, and a parser that looks one token
ahead. A line is a pipe, which may be put in the background, and what follows a semicolon; a pipe
is a list of commands; a command is a block or words with redirections around them, up to a limit.
-/
namespace CommandLines

inductive Mode
  | input | output | append
deriving DecidableEq

inductive Token (W : Type)
  | word (w : W)
  | redirect (mode : Mode)
  | pipe | amp | semi | left | right
deriving DecidableEq

structure Redir (W : Type) where
  mode : Mode
  file : W

inductive Nonterminal
  | line | pipe | exec

/-- Derivations: `line := pipe {'&'} [';' line]`, `pipe := exec ['|' pipe]`,
    `exec := '(' line ')' redirs | redirs {word redirs}`, `redirs := {mode word}`. -/
inductive Tree (W : Type) : Nonterminal → Type
  | last (p : Tree W .pipe) (amps : Nat) : Tree W .line
  | seq (p : Tree W .pipe) (amps : Nat) (rest : Tree W .line) : Tree W .line
  | one (e : Tree W .exec) : Tree W .pipe
  | piped (e : Tree W .exec) (rest : Tree W .pipe) : Tree W .pipe
  | block (l : Tree W .line) (rs : List (Redir W)) : Tree W .exec
  | simple (rs : List (Redir W)) (args : List (W × List (Redir W))) : Tree W .exec

variable {W : Type} {n : Nonterminal}

def redirTokens (rs : List (Redir W)) : List (Token W) :=
  rs.flatMap fun r => [.redirect r.mode, .word r.file]

def argTokens (args : List (W × List (Redir W))) : List (Token W) :=
  args.flatMap fun a => .word a.1 :: redirTokens a.2

def Tree.tokens : {n : Nonterminal} → Tree W n → List (Token W)
  | _, .last p amps => p.tokens ++ List.replicate amps .amp
  | _, .seq p amps rest => p.tokens ++ (List.replicate amps .amp ++ .semi :: rest.tokens)
  | _, .one e => e.tokens
  | _, .piped e rest => e.tokens ++ .pipe :: rest.tokens
  | _, .block l rs => .left :: (l.tokens ++ .right :: redirTokens rs)
  | _, .simple rs args => redirTokens rs ++ argTokens args

/-- No command has more words. -/
def Tree.Within (limit : Nat) : {n : Nonterminal} → Tree W n → Prop
  | _, .last p _ => p.Within limit
  | _, .seq p _ rest => p.Within limit ∧ rest.Within limit
  | _, .one e => e.Within limit
  | _, .piped e rest => e.Within limit ∧ rest.Within limit
  | _, .block l _ => l.Within limit
  | _, .simple _ args => args.length ≤ limit

/-- A parse ends early without fuel, or at a token that does not fit. -/
inductive Stop
  | fuel | refused
deriving DecidableEq

/-- A parse of a phrase gives its derivation and the tokens behind it. -/
abbrev Parser (W : Type) (n : Nonterminal) : Type := List (Token W) → Except Stop (Tree W n × List (Token W))

def amps : Nat → List (Token W) → Except Stop (Nat × List (Token W))
  | 0, _ => .error .fuel
  | fuel + 1, ts =>
    match ts with
    | .amp :: ts => do
      let (k, ts) ← amps fuel ts
      return (k + 1, ts)
    | ts => .ok (0, ts)

def redirs : Nat → List (Token W) → Except Stop (List (Redir W) × List (Token W))
  | 0, _ => .error .fuel
  | fuel + 1, ts =>
    match ts with
    | .redirect mode :: .word w :: ts => do
      let (rs, ts) ← redirs fuel ts
      return (⟨mode, w⟩ :: rs, ts)
    | .redirect _ :: _ => .error .refused
    | ts => .ok ([], ts)

/-- The words behind the first `argc`. -/
def args (limit : Nat) : Nat → Nat → List (Token W) →
    Except Stop (List (W × List (Redir W)) × List (Token W))
  | 0, _, _ => .error .fuel
  | fuel + 1, argc, ts =>
    match ts with
    | .word w :: ts =>
      if limit ≤ argc then .error .refused
      else do
        let (rs, ts) ← redirs fuel ts
        let (as, ts) ← args limit fuel (argc + 1) ts
        return ((w, rs) :: as, ts)
    | .redirect _ :: _ => .error .refused
    | .left :: _ => .error .refused
    | ts => .ok ([], ts)

mutual

def line (limit : Nat) : Nat → Parser W .line
  | 0, _ => .error .fuel
  | fuel + 1, ts => do
    let (p, ts) ← pipe limit fuel ts
    let (k, ts) ← amps fuel ts
    match ts with
    | .semi :: ts => do
      let (rest, ts) ← line limit fuel ts
      return (.seq p k rest, ts)
    | ts => return (.last p k, ts)

def pipe (limit : Nat) : Nat → Parser W .pipe
  | 0, _ => .error .fuel
  | fuel + 1, ts => do
    let (e, ts) ← exec limit fuel ts
    match ts with
    | .pipe :: ts => do
      let (rest, ts) ← pipe limit fuel ts
      return (.piped e rest, ts)
    | ts => return (.one e, ts)

def exec (limit : Nat) : Nat → Parser W .exec
  | 0, _ => .error .fuel
  | fuel + 1, ts =>
    match ts with
    | .left :: ts => block limit fuel ts
    | ts => do
      let (rs, ts) ← redirs fuel ts
      let (as, ts) ← args limit fuel 0 ts
      return (.simple rs as, ts)

/-- A block behind its bracket. -/
def block (limit : Nat) : Nat → Parser W .exec
  | 0, _ => .error .fuel
  | fuel + 1, ts => do
    let (l, ts) ← line limit fuel ts
    match ts with
    | .right :: ts => do
      let (rs, ts) ← redirs fuel ts
      return (.block l rs, ts)
    | _ => .error .refused

end

variable {limit fuel argc : Nat} {ts rest : List (Token W)}

section Binds
variable {α β : Type} {x : Except Stop α} {f : α → Except Stop β} {a : α} {b : β}

theorem bind_ok (run : (x >>= f) = .ok b) : ∃ a, x = .ok a ∧ f a = .ok b := by
  cases x with
  | error e => cases run
  | ok a => exact ⟨a,rfl,run⟩

/-- With enough fuel the result is this one. -/
def Reaches (x : Except Stop α) (a : α) : Prop := x = .error .fuel ∨ x = .ok a

theorem Reaches.bind (first : Reaches x a) (second : Reaches (f a) b) : Reaches (x >>= f) b := by
  rcases first with rfl | rfl
  · exact Or.inl rfl
  · exact second

theorem fueled_bind (first : x ≠ .error .fuel) (second : ∀ a, x = .ok a → f a ≠ .error .fuel) :
    (x >>= f) ≠ .error .fuel := by
  cases x with
  | error e =>
    intro run
    cases run
    exact first rfl
  | ok a => exact second a rfl

end Binds

section Soundness

theorem amps_sound {k : Nat} (run : amps fuel ts = .ok (k, rest)) :
    ts = List.replicate k .amp ++ rest := by
  induction fuel generalizing ts k with
  | zero => cases run
  | succ fuel ih =>
    rw [amps.eq_def] at run
    dsimp only at run
    split at run
    · obtain ⟨⟨k',rest'⟩,first,done⟩ := bind_ok run
      cases done
      rw [ih first]
      rfl
    · cases run
      rfl

theorem redirs_sound {rs : List (Redir W)} (run : redirs fuel ts = .ok (rs, rest)) :
    ts = redirTokens rs ++ rest := by
  induction fuel generalizing ts rs with
  | zero => cases run
  | succ fuel ih =>
    rw [redirs.eq_def] at run
    dsimp only at run
    split at run
    · obtain ⟨⟨rs',rest'⟩,first,done⟩ := bind_ok run
      cases done
      rw [ih first]
      rfl
    · cases run
    · cases run
      rfl

theorem args_sound {as : List (W × List (Redir W))} (run : args limit fuel argc ts = .ok (as, rest))
    (room : argc ≤ limit) : ts = argTokens as ++ rest ∧ argc + as.length ≤ limit := by
  induction fuel generalizing ts as argc with
  | zero => cases run
  | succ fuel ih =>
    rw [args.eq_def] at run
    dsimp only at run
    split at run
    · split at run
      · cases run
      · rename_i more
        obtain ⟨⟨rs,ts'⟩,first,run⟩ := bind_ok run
        obtain ⟨⟨as',rest'⟩,second,done⟩ := bind_ok run
        cases done
        obtain ⟨same,few⟩ := ih second (by omega)
        dsimp only at same
        constructor
        · rw [redirs_sound first, same]
          simp [argTokens]
        · simp only [List.length_cons]
          omega
    · cases run
    · cases run
    · cases run
      exact ⟨rfl,room⟩

/-- What is parsed is derived. -/
structure Sound (limit : Nat) (ts : List (Token W)) (result : Tree W n × List (Token W)) : Prop where
  tokens : ts = result.1.tokens ++ result.2
  within : result.1.Within limit

def AllSound (limit : Nat) (parse : Parser W n) : Prop := ∀ ts r, parse ts = .ok r → Sound limit ts r

def BlockSound (limit : Nat) (parse : Parser W .exec) : Prop :=
  ∀ ts r, parse ts = .ok r → Sound limit (.left :: ts) r

theorem line_sound {result : Tree W .line × List (Token W)}
    (pipes : AllSound (W := W) limit (pipe limit fuel))
    (lines : AllSound (W := W) limit (line limit fuel))
    (run : line limit (fuel + 1) ts = .ok result) : Sound limit ts result := by
  rw [line] at run
  obtain ⟨⟨p,ts1⟩,first,run⟩ := bind_ok run
  obtain ⟨⟨k,ts2⟩,second,run⟩ := bind_ok run
  obtain ⟨ahead,within⟩ := pipes _ _ first
  have background := amps_sound second
  dsimp only at run ahead
  split at run
  · obtain ⟨⟨l,ts3⟩,third,done⟩ := bind_ok run
    cases done
    obtain ⟨behind,within'⟩ := lines _ _ third
    dsimp only at behind
    refine ⟨?_, within, within'⟩
    rw [ahead, background, behind, Tree.tokens]
    simp
  · cases run
    refine ⟨?_, within⟩
    rw [ahead, background, Tree.tokens]
    simp

theorem pipe_sound {result : Tree W .pipe × List (Token W)}
    (execs : AllSound (W := W) limit (exec limit fuel))
    (pipes : AllSound (W := W) limit (pipe limit fuel))
    (run : pipe limit (fuel + 1) ts = .ok result) : Sound limit ts result := by
  rw [pipe] at run
  obtain ⟨⟨e,ts1⟩,first,run⟩ := bind_ok run
  obtain ⟨ahead,within⟩ := execs _ _ first
  dsimp only at run ahead
  split at run
  · obtain ⟨⟨p,ts2⟩,second,done⟩ := bind_ok run
    cases done
    obtain ⟨behind,within'⟩ := pipes _ _ second
    dsimp only at behind
    refine ⟨?_, within, within'⟩
    rw [ahead, behind, Tree.tokens]
    simp
  · cases run
    exact ⟨ahead,within⟩

theorem exec_sound {result : Tree W .exec × List (Token W)}
    (blocks : BlockSound (W := W) limit (block limit fuel))
    (run : exec limit (fuel + 1) ts = .ok result) : Sound limit ts result := by
  rw [exec.eq_def] at run
  dsimp only at run
  split at run
  · exact blocks _ _ run
  · obtain ⟨⟨rs,ts1⟩,first,run⟩ := bind_ok run
    obtain ⟨⟨as,ts2⟩,second,done⟩ := bind_ok run
    cases done
    obtain ⟨behind,few⟩ := args_sound second (Nat.zero_le limit)
    refine ⟨?_, by simpa [Tree.Within] using few⟩
    dsimp only at behind
    rw [redirs_sound first, behind, Tree.tokens]
    simp

theorem block_sound {result : Tree W .exec × List (Token W)}
    (lines : AllSound (W := W) limit (line limit fuel))
    (run : block limit (fuel + 1) ts = .ok result) : Sound limit (.left :: ts) result := by
  rw [block] at run
  obtain ⟨⟨l,ts1⟩,first,run⟩ := bind_ok run
  obtain ⟨ahead,within⟩ := lines _ _ first
  dsimp only at run ahead
  split at run
  · obtain ⟨⟨rs,ts2⟩,second,done⟩ := bind_ok run
    cases done
    refine ⟨?_, within⟩
    rw [ahead, redirs_sound second, Tree.tokens]
    simp
  · cases run

theorem parse_sound (limit fuel : Nat) :
    AllSound (W := W) limit (line limit fuel) ∧ AllSound (W := W) limit (pipe limit fuel) ∧
      AllSound (W := W) limit (exec limit fuel) ∧ BlockSound (W := W) limit (block limit fuel) := by
  induction fuel with
  | zero =>
    refine ⟨?_, ?_, ?_, ?_⟩ <;>
    · intro ts r run
      cases run
  | succ fuel ih =>
    obtain ⟨lines,pipes,execs,blocks⟩ := ih
    exact ⟨fun _ _ run => line_sound pipes lines run, fun _ _ run => pipe_sound execs pipes run,
      fun _ _ run => exec_sound blocks run, fun _ _ run => block_sound lines run⟩

end Soundness

section Completeness

/-- Whether a phrase ends before the token. -/
def closes : Nonterminal → Token W → Bool
  | _, .right => true
  | .pipe, .amp | .pipe, .semi | .exec, .amp | .exec, .semi | .exec, .pipe => true
  | _, _ => false

def Follows (n : Nonterminal) (rest : List (Token W)) : Prop :=
  ∀ t ts, rest = t :: ts → closes n t = true

theorem follows_nil (n : Nonterminal) : Follows n ([] : List (Token W)) := by
  intro t ts same
  cases same

theorem follows_cons {t : Token W} (closed : closes n t = true) : Follows n (t :: rest) := by
  intro u us same
  cases same
  exact closed

theorem Follows.ne {t : Token W} (follows : Follows n rest) (opening : closes n t = false) : rest ≠ t :: ts := by
  intro same
  rw [follows t ts same] at opening
  cases opening

theorem Follows.weaken {m : Nonterminal} (follows : Follows n rest)
    (weaker : ∀ t : Token W, closes n t = true → closes m t = true) : Follows m rest :=
  fun t ts same => weaker t (follows t ts same)

theorem closes_exec (t : Token W) (closed : closes .pipe t = true) : closes .exec t = true := by
  cases t <;> first | rfl | cases closed

theorem closes_pipe (t : Token W) (closed : closes .line t = true) : closes .pipe t = true := by
  cases t <;> first | rfl | cases closed

theorem follows_amps (k : Nat) (follows : Follows .pipe rest) :
    Follows .pipe (List.replicate k .amp ++ rest) := by
  cases k with
  | zero => exact follows
  | succ k => exact follows_cons rfl

theorem amps_complete (k : Nat) (closed : ∀ ts, rest ≠ .amp :: ts) :
    Reaches (amps fuel (List.replicate k .amp ++ rest)) (k, rest) := by
  induction fuel generalizing k with
  | zero => exact Or.inl rfl
  | succ fuel ih =>
    cases k with
    | zero =>
      change Reaches (amps (fuel + 1) rest) (0, rest)
      rw [amps.eq_def]
      dsimp only
      split
      · exact absurd rfl (closed _)
      · exact Or.inr rfl
    | succ k => exact (ih k).bind (Or.inr rfl)

theorem redirs_complete (rs : List (Redir W)) (closed : ∀ mode ts, rest ≠ .redirect mode :: ts) :
    Reaches (redirs fuel (redirTokens rs ++ rest)) (rs, rest) := by
  induction fuel generalizing rs with
  | zero => exact Or.inl rfl
  | succ fuel ih =>
    cases rs with
    | nil =>
      change Reaches (redirs (fuel + 1) rest) ([], rest)
      rw [redirs.eq_def]
      dsimp only
      split
      · exact absurd rfl (closed _ _)
      · exact absurd rfl (closed _ _)
      · exact Or.inr rfl
    | cons r rs => exact (ih rs).bind (Or.inr rfl)

theorem redirect_ne (as : List (W × List (Redir W))) (follows : Follows .exec rest) (mode : Mode) :
    argTokens as ++ rest ≠ .redirect mode :: ts := by
  cases as with
  | nil => exact follows.ne rfl
  | cons a as =>
    intro same
    cases same

theorem args_complete (as : List (W × List (Redir W))) (few : argc + as.length ≤ limit)
    (follows : Follows .exec rest) :
    Reaches (args limit fuel argc (argTokens as ++ rest)) (as, rest) := by
  induction fuel generalizing as argc with
  | zero => exact Or.inl rfl
  | succ fuel ih =>
    cases as with
    | nil =>
      change Reaches (args limit (fuel + 1) argc rest) ([], rest)
      rw [args.eq_def]
      dsimp only
      split
      · exact absurd rfl (follows.ne rfl)
      · exact absurd rfl (follows.ne rfl)
      · exact absurd rfl (follows.ne rfl)
      · exact Or.inr rfl
    | cons a as =>
      rw [List.length_cons] at few
      have same : argTokens (a :: as) ++ rest = .word a.1 :: (redirTokens a.2 ++ (argTokens as ++ rest)) := by
        simp [argTokens]
      rw [same, args, if_neg (by omega)]
      refine (redirs_complete a.2 fun mode ts => redirect_ne as follows mode).bind ?_
      exact (ih as (by omega)).bind (Or.inr rfl)

/-- What is derived is parsed. -/
def Complete (limit : Nat) (parse : Parser W n) : Prop :=
  ∀ t rest, t.Within limit → Follows n rest → Reaches (parse (t.tokens ++ rest)) (t, rest)

def BlockComplete (limit : Nat) (parse : Parser W .exec) : Prop :=
  ∀ l rs rest, l.Within limit → Follows .exec rest →
    Reaches (parse (l.tokens ++ .right :: (redirTokens rs ++ rest))) (.block l rs, rest)

theorem line_complete (pipes : Complete (W := W) limit (pipe limit fuel))
    (lines : Complete (W := W) limit (line limit fuel)) : Complete (W := W) limit (line limit (fuel + 1)) := by
  intro t rest within follows
  cases t with
  | last p k =>
    have shape : (Tree.last p k).tokens ++ rest = p.tokens ++ (List.replicate k .amp ++ rest) := by
      simp [Tree.tokens]
    rw [shape, line]
    refine (pipes p _ within (follows_amps k (follows.weaken closes_pipe))).bind ?_
    refine (amps_complete k fun ts => follows.ne rfl).bind ?_
    dsimp only
    split
    · exact absurd rfl (follows.ne rfl)
    · exact Or.inr rfl
  | seq p k l =>
    have shape : (Tree.seq p k l).tokens ++ rest =
        p.tokens ++ (List.replicate k .amp ++ .semi :: (l.tokens ++ rest)) := by
      simp [Tree.tokens]
    rw [shape, line]
    refine (pipes p _ within.1 (follows_amps k (follows_cons rfl))).bind ?_
    refine (amps_complete k fun ts same => ?_).bind ?_
    · cases same
    · exact (lines l rest within.2 follows).bind (Or.inr rfl)

theorem pipe_complete (execs : Complete (W := W) limit (exec limit fuel))
    (pipes : Complete (W := W) limit (pipe limit fuel)) : Complete (W := W) limit (pipe limit (fuel + 1)) := by
  intro t rest within follows
  cases t with
  | one e =>
    rw [Tree.tokens, pipe]
    refine (execs e rest within (follows.weaken closes_exec)).bind ?_
    dsimp only
    split
    · exact absurd rfl (follows.ne rfl)
    · exact Or.inr rfl
  | piped e p =>
    have shape : (Tree.piped e p).tokens ++ rest = e.tokens ++ .pipe :: (p.tokens ++ rest) := by
      simp [Tree.tokens]
    rw [shape, pipe]
    refine (execs e _ within.1 (follows_cons rfl)).bind ?_
    exact (pipes p rest within.2 follows).bind (Or.inr rfl)

theorem left_ne (rs : List (Redir W)) (as : List (W × List (Redir W))) (follows : Follows .exec rest) :
    redirTokens rs ++ (argTokens as ++ rest) ≠ .left :: ts := by
  cases rs with
  | cons r rs =>
    intro same
    cases same
  | nil =>
    cases as with
    | nil => exact follows.ne rfl
    | cons a as =>
      intro same
      cases same

theorem exec_complete (blocks : BlockComplete (W := W) limit (block limit fuel)) :
    Complete (W := W) limit (exec limit (fuel + 1)) := by
  intro t rest within follows
  cases t with
  | block l rs =>
    have shape : (Tree.block l rs).tokens ++ rest = .left :: (l.tokens ++ .right :: (redirTokens rs ++ rest)) := by
      simp [Tree.tokens]
    rw [shape, exec]
    exact blocks l rs rest within follows
  | simple rs as =>
    rw [Tree.tokens, List.append_assoc, exec.eq_def]
    dsimp only
    split
    · rename_i same
      exact absurd same (left_ne rs as follows)
    · refine (redirs_complete rs fun mode ts => redirect_ne as follows mode).bind ?_
      refine (args_complete as ?_ follows).bind (Or.inr rfl)
      rw [Nat.zero_add]
      exact within

theorem block_complete (lines : Complete (W := W) limit (line limit fuel)) :
    BlockComplete (W := W) limit (block limit (fuel + 1)) := by
  intro l rs rest within follows
  rw [block]
  refine (lines l _ within (follows_cons rfl)).bind ?_
  exact (redirs_complete rs fun mode ts => follows.ne rfl).bind (Or.inr rfl)

theorem parse_complete (limit fuel : Nat) :
    Complete (W := W) limit (line limit fuel) ∧ Complete (W := W) limit (pipe limit fuel) ∧
      Complete (W := W) limit (exec limit fuel) ∧ BlockComplete (W := W) limit (block limit fuel) := by
  induction fuel with
  | zero => exact ⟨fun _ _ _ _ => Or.inl rfl, fun _ _ _ _ => Or.inl rfl, fun _ _ _ _ => Or.inl rfl,
      fun _ _ _ _ _ => Or.inl rfl⟩
  | succ fuel ih =>
    obtain ⟨lines,pipes,execs,blocks⟩ := ih
    exact ⟨line_complete pipes lines, pipe_complete execs pipes, exec_complete blocks, block_complete lines⟩

end Completeness

section Fuel

theorem Sound.shorter {result : Tree W n × List (Token W)} (sound : Sound limit ts result) :
    result.2.length ≤ ts.length := by
  rw [sound.tokens, List.length_append]
  exact Nat.le_add_left _ _

theorem redirs_shorter {r : List (Redir W) × List (Token W)} (run : redirs fuel ts = .ok r) :
    r.2.length ≤ ts.length := by
  rw [redirs_sound run, List.length_append]
  exact Nat.le_add_left _ _

theorem amps_shorter {r : Nat × List (Token W)} (run : amps fuel ts = .ok r) : r.2.length ≤ ts.length := by
  rw [amps_sound run, List.length_append]
  exact Nat.le_add_left _ _

theorem amps_fueled (enough : ts.length < fuel) : amps fuel ts ≠ .error .fuel := by
  induction fuel generalizing ts with
  | zero => cases enough
  | succ fuel ih =>
    rw [amps.eq_def]
    dsimp only
    split
    · rw [List.length_cons] at enough
      refine fueled_bind (ih (by omega)) fun a run => ?_
      exact nofun
    · exact nofun

theorem redirs_fueled (enough : ts.length < fuel) : redirs fuel ts ≠ .error .fuel := by
  induction fuel generalizing ts with
  | zero => cases enough
  | succ fuel ih =>
    rw [redirs.eq_def]
    dsimp only
    split
    · simp only [List.length_cons] at enough
      refine fueled_bind (ih (by omega)) fun a run => ?_
      exact nofun
    · exact nofun
    · exact nofun

theorem args_fueled (enough : ts.length < fuel) : args limit fuel argc ts ≠ .error .fuel := by
  induction fuel generalizing ts argc with
  | zero => cases enough
  | succ fuel ih =>
    rw [args.eq_def]
    dsimp only
    split
    · rw [List.length_cons] at enough
      split
      · exact nofun
      · refine fueled_bind (redirs_fueled (by omega)) fun r run => ?_
        have shorter := redirs_shorter run
        refine fueled_bind (ih (by omega)) fun a run => ?_
        exact nofun
    · exact nofun
    · exact nofun
    · exact nofun

/-- Four steps for each token, and `depth` to reach the first. -/
def Fueled (depth fuel : Nat) (parse : Parser W n) : Prop :=
  ∀ ts, 4 * ts.length + depth ≤ fuel → parse ts ≠ .error .fuel

theorem line_fueled (pipes : Fueled (W := W) 3 fuel (pipe limit fuel))
    (lines : Fueled (W := W) 4 fuel (line limit fuel)) :
    Fueled (W := W) 4 (fuel + 1) (line limit (fuel + 1)) := by
  intro ts enough
  rw [line]
  refine fueled_bind (pipes ts (by omega)) fun first run => ?_
  obtain ⟨p,ts1⟩ := first
  have shorter := ((parse_sound limit fuel).2.1 _ _ run).shorter
  dsimp only at shorter ⊢
  refine fueled_bind (amps_fueled (by omega)) fun second run => ?_
  obtain ⟨k,ts2⟩ := second
  have shorter' := amps_shorter run
  dsimp only at shorter' ⊢
  split
  · rw [List.length_cons] at shorter'
    refine fueled_bind (lines _ (by omega)) fun third run => ?_
    exact nofun
  · exact nofun

theorem pipe_fueled (execs : Fueled (W := W) 2 fuel (exec limit fuel))
    (pipes : Fueled (W := W) 3 fuel (pipe limit fuel)) :
    Fueled (W := W) 3 (fuel + 1) (pipe limit (fuel + 1)) := by
  intro ts enough
  rw [pipe]
  refine fueled_bind (execs ts (by omega)) fun first run => ?_
  obtain ⟨e,ts1⟩ := first
  have shorter := ((parse_sound limit fuel).2.2.1 _ _ run).shorter
  dsimp only at shorter ⊢
  split
  · rw [List.length_cons] at shorter
    refine fueled_bind (pipes _ (by omega)) fun second run => ?_
    exact nofun
  · exact nofun

theorem exec_fueled (blocks : Fueled (W := W) 5 fuel (block limit fuel)) :
    Fueled (W := W) 2 (fuel + 1) (exec limit (fuel + 1)) := by
  intro ts enough
  rw [exec.eq_def]
  dsimp only
  split
  · rw [List.length_cons] at enough
    exact blocks _ (by omega)
  · refine fueled_bind (redirs_fueled (by omega)) fun first run => ?_
    have shorter := redirs_shorter run
    refine fueled_bind (args_fueled (by omega)) fun second run => ?_
    exact nofun

theorem block_fueled (lines : Fueled (W := W) 4 fuel (line limit fuel)) :
    Fueled (W := W) 5 (fuel + 1) (block limit (fuel + 1)) := by
  intro ts enough
  rw [block]
  refine fueled_bind (lines ts (by omega)) fun first run => ?_
  obtain ⟨l,ts1⟩ := first
  have shorter := ((parse_sound limit fuel).1 _ _ run).shorter
  dsimp only at shorter ⊢
  split
  · rw [List.length_cons] at shorter
    refine fueled_bind (redirs_fueled (by omega)) fun second run => ?_
    exact nofun
  · exact nofun

theorem parse_fueled (limit fuel : Nat) :
    Fueled (W := W) 4 fuel (line limit fuel) ∧ Fueled (W := W) 3 fuel (pipe limit fuel) ∧
      Fueled (W := W) 2 fuel (exec limit fuel) ∧ Fueled (W := W) 5 fuel (block limit fuel) := by
  induction fuel with
  | zero => refine ⟨?_, ?_, ?_, ?_⟩ <;> exact fun ts enough => absurd enough (by omega)
  | succ fuel ih =>
    obtain ⟨lines,pipes,execs,blocks⟩ := ih
    exact ⟨line_fueled pipes lines, pipe_fueled execs pipes, exec_fueled blocks, block_fueled lines⟩

end Fuel

section Derivations

/-- A derivation of all the tokens. -/
structure Derives (limit : Nat) (t : Tree W .line) (ts : List (Token W)) : Prop where
  tokens : t.tokens = ts
  within : t.Within limit

theorem derives_iff {t : Tree W .line} (enough : 4 * ts.length + 4 ≤ fuel) :
    Derives limit t ts ↔ line limit fuel ts = .ok (t, []) := by
  constructor
  · intro derives
    have run := (parse_complete limit fuel).1 t [] derives.within (follows_nil _)
    rw [List.append_nil, derives.tokens] at run
    exact run.resolve_left ((parse_fueled limit fuel).1 ts enough)
  · intro run
    have sound := (parse_sound limit fuel).1 _ _ run
    exact ⟨by rw [sound.tokens, List.append_nil], sound.within⟩

theorem Derives.unique {t u : Tree W .line} (first : Derives limit t ts) (second : Derives limit u ts) :
    t = u := by
  have run := (derives_iff (Nat.le_refl _)).mp first
  rw [(derives_iff (Nat.le_refl _)).mp second] at run
  cases run
  rfl

end Derivations

end CommandLines
