import KernelLabs.Xv6.ShTokens
import Mathlib.Data.List.Forall2

/-!
The shell's parser follows the one that looks at tokens: the command it builds is that of the
derivation, with its words in place.
-/
namespace Xv6Sh
open CommandLines

section Shapes
variable {W V : Type} {n : Nonterminal}

def openMode : Mode → Nat
  | .input => O_RDONLY
  | .output | .append => O_WRONLY ||| O_CREATE

def descriptor : Mode → Nat
  | .input => 0
  | .output | .append => 1

/-- Later redirections are put around earlier ones. -/
def redirected (cmd : Cmd W) (rs : List (Redir W)) : Cmd W :=
  rs.foldl (fun cmd r => .redir cmd r.file (openMode r.mode) (descriptor r.mode)) cmd

def backs (cmd : Cmd W) : Nat → Cmd W
  | 0 => cmd
  | k + 1 => backs (.back cmd) k

/-- The command tree of a derivation. -/
def command : {n : Nonterminal} → Tree W n → Cmd W
  | _, .last p amps => backs (command p) amps
  | _, .seq p amps rest => .list (backs (command p) amps) (command rest)
  | _, .one e => command e
  | _, .piped e rest => .pipe (command e) (command rest)
  | _, .block l rs => redirected (command l) rs
  | _, .simple rs args => redirected (.exec (args.map (·.1))) (rs ++ args.flatMap (·.2))

/-- A simple command as its words come in. -/
def filled (cmd : Cmd W) (args : List (W × List (Redir W))) : Cmd W :=
  args.foldl (fun cmd a => redirected (cmd.push a.1) a.2) cmd

theorem push_redirected (w : W) (cmd : Cmd W) (rs : List (Redir W)) :
    (redirected cmd rs).push w = redirected (cmd.push w) rs := by
  induction rs generalizing cmd with
  | nil => rfl
  | cons r rs ih => exact ih _

theorem redirected_append (cmd : Cmd W) (rs ss : List (Redir W)) :
    redirected (redirected cmd rs) ss = redirected cmd (rs ++ ss) := List.foldl_append.symm

theorem filled_redirected (words : List W) (rs : List (Redir W)) (args : List (W × List (Redir W))) :
    filled (redirected (.exec words) rs) args =
      redirected (.exec (words ++ args.map (·.1))) (rs ++ args.flatMap (·.2)) := by
  induction args generalizing words rs with
  | nil => simp [filled]
  | cons a args ih =>
    change filled (redirected ((redirected (.exec words) rs).push a.1) a.2) args = _
    rw [push_redirected, redirected_append, Cmd.push, ih]
    simp

/-- One shape, with related words. -/
inductive Matches (R : W → V → Prop) : Cmd W → Cmd V → Prop
  | exec {as : List W} {bs : List V} (words : List.Forall₂ R as bs) : Matches R (.exec as) (.exec bs)
  | redir {c : Cmd W} {d : Cmd V} {f : W} {g : V} (inner : Matches R c d) (file : R f g) (mode fd : Nat) :
      Matches R (.redir c f mode fd) (.redir d g mode fd)
  | pipe {c c' : Cmd W} {d d' : Cmd V} (left : Matches R c d) (right : Matches R c' d') :
      Matches R (.pipe c c') (.pipe d d')
  | list {c c' : Cmd W} {d d' : Cmd V} (left : Matches R c d) (right : Matches R c' d') :
      Matches R (.list c c') (.list d d')
  | back {c : Cmd W} {d : Cmd V} (inner : Matches R c d) : Matches R (.back c) (.back d)

theorem Matches.push {R : W → V → Prop} {c : Cmd W} {d : Cmd V} {w : W} {x : V} (same : Matches R c d)
    (word : R w x) : Matches R (c.push w) (d.push x) := by
  induction same with
  | exec words => exact .exec (List.rel_append words (.cons word .nil))
  | redir inner file mode fd ih => exact .redir ih file mode fd
  | pipe left right => exact .pipe left right
  | list left right => exact .list left right
  | back inner => exact .back inner

end Shapes

section Steps
variable {α α' β β' γ : Type} {P : α → β → Prop} {Q : α' → β' → Prop}

/-- The shell's parser ends as the other one does. -/
def Tracks (P : α → β → Prop) (x : Except Halt α) : Except Stop β → Prop
  | .ok b => ∃ a, x = .ok a ∧ P a b
  | .error .refused => ∃ printed message, x = .error (.panic printed message)
  | .error .fuel => True

theorem Tracks.bind {x : Except Halt α} {y : Except Stop β} {f : α → Except Halt α'} {g : β → Except Stop β'}
    (first : Tracks P x y) (second : ∀ a b, P a b → Tracks Q (f a) (g b)) : Tracks Q (x >>= f) (y >>= g) := by
  match y with
  | .ok b =>
    obtain ⟨a,rfl,related⟩ := first
    exact second a b related
  | .error .refused =>
    obtain ⟨printed,message,rfl⟩ := first
    exact ⟨printed,message,rfl⟩
  | .error .fuel => trivial

theorem Tracks.finish {R : α → β' → Prop} {x : Except Halt α} {y : Except Stop β} {g : β → Except Stop β'}
    (first : Tracks P x y) (second : ∀ a b, P a b → Tracks R (.ok a) (g b)) : Tracks R x (y >>= g) := by
  have whole := first.bind (f := .ok) second
  rwa [show x >>= .ok = x from by cases x <;> rfl] at whole

/-- The command and the place that were reached. -/
def Stands (str : Str) (shape : γ → Cmd Text) (a : Cmd Span × Nat) (b : γ × List (Token Text)) : Prop :=
  Matches (Reads str.text) a.1 (shape b.1) ∧ At str a.2 b.2

end Steps

section Loops
variable {str : Str} {fuel s : Nat} {cmd : Cmd Span} {c : Cmd Text} {ts : List (Token Text)}

theorem tracks_panic {α β : Type} {P : α → β → Prop} (message : String) :
    Tracks P (panic message : Except Halt α) (.error .refused) := ⟨[],message,rfl⟩

theorem parsebacks_tracks (here : At str s ts) (same : Matches (Reads str.text) cmd c) :
    Tracks (Stands str (backs c)) (parsebacks str.text fuel cmd s) (amps fuel ts) := by
  induction fuel generalizing s cmd c ts with
  | zero => trivial
  | succ fuel ih =>
    obtain ⟨s',seen,here'⟩ := peek_spec here (chars "&") (by decide)
    rw [parsebacks, seen]
    cases ts with
    | nil => exact ⟨_, rfl, same, here'⟩
    | cons t ts =>
      cases t with
      | amp =>
        obtain ⟨_,behind,_⟩ := gettoken_cons here'
        exact (ih behind same.back).finish fun a b stands => ⟨a,rfl,stands⟩
      | redirect mode => cases mode <;> exact ⟨_, rfl, same, here'⟩
      | _ => exact ⟨_, rfl, same, here'⟩

theorem parseredirs_tracks (here : At str s ts) (same : Matches (Reads str.text) cmd c) :
    Tracks (Stands str (redirected c)) (parseredirs str.text fuel cmd s) (redirs fuel ts) := by
  induction fuel generalizing s cmd c ts with
  | zero => trivial
  | succ fuel ih =>
    obtain ⟨s',seen,here'⟩ := peek_spec here (chars "<>") (by decide)
    rw [parseredirs, seen]
    cases ts with
    | nil => exact ⟨_, rfl, same, here'⟩
    | cons t ts =>
      cases t with
      | redirect mode =>
        obtain ⟨kind,behind,_⟩ := gettoken_cons here'
        have more : starts (chars "<>") (.redirect mode :: ts) = true := by cases mode <;> rfl
        rw [more]
        dsimp only
        rw [if_pos rfl]
        cases ts with
        | nil =>
          obtain ⟨stop,_⟩ := gettoken_nil behind
          rw [stop, if_pos (by decide)]
          exact tracks_panic _
        | cons u ts =>
          obtain ⟨kind',behind',word⟩ := gettoken_cons behind
          rw [kind']
          cases u with
          | word x =>
            have wrapped : Matches (Reads str.text)
                (.redir cmd (gettoken str.text (gettoken str.text s').s).word (openMode mode) (descriptor mode))
                (.redir c x (openMode mode) (descriptor mode)) := .redir same (word x rfl) _ _
            rw [if_neg (fun differs => differs rfl), kind]
            cases mode <;> exact (ih behind' wrapped).finish fun a b stands => ⟨a,rfl,stands⟩
          | redirect mode' => cases mode' <;> exact tracks_panic _
          | _ => exact tracks_panic _
      | _ => exact ⟨_, rfl, same, here'⟩

theorem parseargs_tracks {argc : Nat} (here : At str s ts) (same : Matches (Reads str.text) cmd c) :
    Tracks (Stands str (filled c)) (parseargs str.text fuel argc cmd s) (args (MAXARGS - 1) fuel argc ts) := by
  induction fuel generalizing s cmd c ts argc with
  | zero => trivial
  | succ fuel ih =>
    obtain ⟨s',seen,here'⟩ := peek_spec here (chars "|)&;") (by decide)
    rw [parseargs, seen]
    cases ts with
    | nil =>
      obtain ⟨stop,behind⟩ := gettoken_nil here'
      refine ⟨(cmd, (gettoken str.text s').s), ?_, same, behind⟩
      exact if_pos stop
    | cons t ts =>
      obtain ⟨kind,behind,word⟩ := gettoken_cons here'
      cases t with
      | word x =>
        change Tracks _ (if (gettoken str.text s').ret = 0#8 then _ else _) _
        rw [kind, show ret (.word x) = code 'a' from rfl, if_neg (by decide), if_neg (by decide), args]
        by_cases full : MAXARGS - 1 ≤ argc
        · rw [if_pos (by unfold MAXARGS at *; omega), if_pos full]
          exact tracks_panic _
        · rw [if_neg (by unfold MAXARGS at *; omega), if_neg full]
          refine (parseredirs_tracks behind (same.push (word x rfl))).bind ?_
          rintro ⟨ret,place⟩ ⟨rs,rest⟩ ⟨same',here''⟩
          exact (ih here'' same').finish fun a b stands => ⟨a,rfl,stands⟩
      | redirect mode =>
        cases mode <;>
        · change Tracks _ (if (gettoken str.text s').ret = 0#8 then _ else _) _
          rw [kind]
          exact tracks_panic _
      | left =>
        change Tracks _ (if (gettoken str.text s').ret = 0#8 then _ else _) _
        rw [kind]
        exact tracks_panic _
      | _ => exact ⟨_, rfl, same, here'⟩

end Loops

section Phrases
variable {str : Str} {fuel s : Nat} {cmd : Cmd Span} {c : Cmd Text} {ts : List (Token Text)}

def Phrase (str : Str) {n : Nonterminal} : Cmd Span × Nat → Tree Text n × List (Token Text) → Prop :=
  Stands str command

/-- A function of the shell's parser follows one for the tokens. -/
def Follows (str : Str) {n : Nonterminal} (run : Nat → Except Halt (Cmd Span × Nat)) (parse : Parser Text n) : Prop :=
  ∀ s ts, At str s ts → Tracks (Phrase str) (run s) (parse ts)

def FollowsBlock (str : Str) (run : Nat → Except Halt (Cmd Span × Nat)) (parse : Parser Text .exec) : Prop :=
  ∀ s ts, At str s (.left :: ts) → Tracks (Phrase str) (run s) (parse ts)

theorem parseline_follows (pipes : Follows str (parsepipe str.text fuel) (pipe (MAXARGS - 1) fuel))
    (lines : Follows str (parseline str.text fuel) (line (MAXARGS - 1) fuel)) :
    Follows str (parseline str.text (fuel + 1)) (line (MAXARGS - 1) (fuel + 1)) := by
  intro s ts here
  rw [parseline, line]
  refine (pipes s ts here).bind ?_
  rintro ⟨cmd,s1⟩ ⟨p,ts1⟩ ⟨same,here1⟩
  refine (parsebacks_tracks here1 same).bind ?_
  rintro ⟨cmd2,s2⟩ ⟨k,ts2⟩ ⟨same2,here2⟩
  obtain ⟨s3,seen,here3⟩ := peek_spec here2 (chars ";") (by decide)
  dsimp only at seen here3 ⊢
  rw [seen]
  cases ts2 with
  | nil => exact ⟨_, rfl, same2, here3⟩
  | cons t ts2 =>
    cases t with
    | semi =>
      obtain ⟨_,behind,_⟩ := gettoken_cons here3
      refine (lines _ ts2 behind).bind ?_
      rintro ⟨right,s4⟩ ⟨rest,ts3⟩ ⟨same3,here4⟩
      exact ⟨_, rfl, .list same2 same3, here4⟩
    | redirect mode => cases mode <;> exact ⟨_, rfl, same2, here3⟩
    | _ => exact ⟨_, rfl, same2, here3⟩

theorem parsepipe_follows (execs : Follows str (parseexec str.text fuel) (exec (MAXARGS - 1) fuel))
    (pipes : Follows str (parsepipe str.text fuel) (pipe (MAXARGS - 1) fuel)) :
    Follows str (parsepipe str.text (fuel + 1)) (pipe (MAXARGS - 1) (fuel + 1)) := by
  intro s ts here
  rw [parsepipe, pipe]
  refine (execs s ts here).bind ?_
  rintro ⟨cmd,s1⟩ ⟨e,ts1⟩ ⟨same,here1⟩
  obtain ⟨s2,seen,here2⟩ := peek_spec here1 (chars "|") (by decide)
  dsimp only at seen here2 ⊢
  rw [seen]
  cases ts1 with
  | nil => exact ⟨_, rfl, same, here2⟩
  | cons t ts1 =>
    cases t with
    | pipe =>
      obtain ⟨_,behind,_⟩ := gettoken_cons here2
      refine (pipes _ ts1 behind).bind ?_
      rintro ⟨right,s3⟩ ⟨rest,ts2⟩ ⟨same2,here3⟩
      exact ⟨_, rfl, .pipe same same2, here3⟩
    | redirect mode => cases mode <;> exact ⟨_, rfl, same, here2⟩
    | _ => exact ⟨_, rfl, same, here2⟩

theorem parseblock_follows (lines : Follows str (parseline str.text fuel) (line (MAXARGS - 1) fuel)) :
    FollowsBlock str (parseblock str.text (fuel + 1)) (block (MAXARGS - 1) (fuel + 1)) := by
  intro s ts here
  obtain ⟨s1,seen,here1⟩ := peek_spec here (chars "(") (by decide)
  obtain ⟨_,behind,_⟩ := gettoken_cons here1
  rw [parseblock, seen, block]
  refine (lines _ ts behind).bind ?_
  rintro ⟨cmd,s2⟩ ⟨l,ts2⟩ ⟨same,here2⟩
  obtain ⟨s3,seen',here3⟩ := peek_spec here2 (chars ")") (by decide)
  dsimp only at seen' here3 ⊢
  rw [seen']
  cases ts2 with
  | nil => exact tracks_panic _
  | cons t ts2 =>
    cases t with
    | right =>
      obtain ⟨_,behind',_⟩ := gettoken_cons here3
      exact (parseredirs_tracks behind' same).finish fun a b stands => ⟨a,rfl,stands⟩
    | redirect mode => cases mode <;> exact tracks_panic _
    | _ => exact tracks_panic _

theorem simple_tracks (here : At str s ts) : Tracks (Phrase str)
    (do
      let (ret, s) ← parseredirs str.text fuel (.exec []) s
      parseargs str.text fuel 0 ret s)
    (do
      let (rs, ts) ← redirs fuel ts
      let (as, ts) ← args (MAXARGS - 1) fuel 0 ts
      return (Tree.simple rs as, ts)) := by
  refine (parseredirs_tracks here (.exec .nil)).bind ?_
  rintro ⟨ret,s2⟩ ⟨rs,ts2⟩ ⟨same,here2⟩
  refine (parseargs_tracks here2 same).finish ?_
  rintro ⟨cmd,s3⟩ ⟨as,ts3⟩ ⟨same',here3⟩
  refine ⟨_, rfl, ?_, here3⟩
  dsimp only at same' ⊢
  rw [filled_redirected] at same'
  exact same'

theorem parseexec_follows (blocks : FollowsBlock str (parseblock str.text fuel) (block (MAXARGS - 1) fuel)) :
    Follows str (parseexec str.text (fuel + 1)) (exec (MAXARGS - 1) (fuel + 1)) := by
  intro s ts here
  obtain ⟨s1,seen,here1⟩ := peek_spec here (chars "(") (by decide)
  rw [parseexec, seen, exec.eq_def]
  cases ts with
  | nil => exact simple_tracks here1
  | cons t ts =>
    cases t with
    | left => exact blocks s1 ts here1
    | redirect mode => cases mode <;> exact simple_tracks here1
    | _ => exact simple_tracks here1

theorem parse_follows (str : Str) (fuel : Nat) :
    Follows str (parseline str.text fuel) (line (MAXARGS - 1) fuel) ∧
      Follows str (parsepipe str.text fuel) (pipe (MAXARGS - 1) fuel) ∧
      Follows str (parseexec str.text fuel) (exec (MAXARGS - 1) fuel) ∧
      FollowsBlock str (parseblock str.text fuel) (block (MAXARGS - 1) fuel) := by
  induction fuel with
  | zero => exact ⟨fun _ _ _ => trivial, fun _ _ _ => trivial, fun _ _ _ => trivial, fun _ _ _ => trivial⟩
  | succ fuel ih =>
    obtain ⟨lines,pipes,execs,blocks⟩ := ih
    exact ⟨parseline_follows pipes lines, parsepipe_follows execs pipes, parseexec_follows blocks, parseblock_follows lines⟩

end Phrases

section Buffer
variable {str : Str} {w : Span} {x : Text}

/-- The string at `q`. -/
def cstring (buf : Text) (q : Nat) : Text := (buf.drop q).takeWhile fun c => c ≠ 0#8

/-- The words, in the order in which they get their NULs. -/
def Cmd.words {W : Type} : Cmd W → List W
  | exec argv => argv
  | redir cmd file _ _ => cmd.words ++ [file]
  | pipe left right => left.words ++ right.words
  | list left right => left.words ++ right.words
  | back cmd => cmd.words

/-- The command with other words in it. -/
def Cmd.map {W V : Type} (f : W → V) : Cmd W → Cmd V
  | exec argv => exec (argv.map f)
  | redir cmd file mode fd => redir (cmd.map f) (f file) mode fd
  | pipe left right => pipe (left.map f) (right.map f)
  | list left right => list (left.map f) (right.map f)
  | back cmd => back (cmd.map f)

theorem Matches.reads {W V : Type} {R : W → V → Prop} {c : Cmd W} {d : Cmd V} (same : Matches R c d) :
    ∀ w ∈ c.words, ∃ x, R w x := by
  induction same with
  | exec words =>
    intro w member
    induction words with
    | nil => cases member
    | cons word rest ih =>
      rcases List.mem_cons.mp member with rfl | later
      · exact ⟨_,word⟩
      · exact ih later
  | redir inner file mode fd ih =>
    intro w member
    rcases List.mem_append.mp member with inside | last
    · exact ih w inside
    · rw [List.mem_singleton.mp last]
      exact ⟨_,file⟩
  | pipe left right ihl ihr | list left right ihl ihr =>
    intro w member
    exact (List.mem_append.mp member).elim (ihl w) (ihr w)
  | back inner ih => exact ih

theorem Matches.map_eq {W V : Type} {R : W → V → Prop} {c : Cmd W} {d : Cmd V} {f : W → V}
    (same : Matches R c d) (value : ∀ w ∈ c.words, ∀ x, R w x → f w = x) : c.map f = d := by
  induction same with
  | exec words =>
    refine congrArg Cmd.exec ?_
    induction words with
    | nil => rfl
    | cons word rest ih =>
      rw [List.map_cons, value _ List.mem_cons_self _ word, ih fun w member => value w (List.mem_cons_of_mem _ member)]
  | redir inner file mode fd ih =>
    rw [Cmd.map, ih fun w member => value w (List.mem_append_left _ member),
      value _ (List.mem_append_right _ List.mem_cons_self) _ file]
  | pipe left right ihl ihr | list left right ihl ihr =>
    rw [Cmd.map, ihl fun w member => value w (List.mem_append_left _ member),
      ihr fun w member => value w (List.mem_append_right _ member)]
  | back inner ih => exact congrArg Cmd.back (ih value)

def terminate (buf : Text) (ws : List Span) : Text := ws.foldl (fun buf w => buf.set w.eq 0#8) buf

theorem nulterminate_eq (cmd : Cmd Span) (buf : Text) : nulterminate cmd buf = terminate buf cmd.words := by
  induction cmd generalizing buf with
  | exec argv => rfl
  | redir cmd file mode fd ih =>
    rw [nulterminate, ih, Cmd.words, terminate, terminate, List.foldl_append]
    rfl
  | pipe left right ihl ihr | list left right ihl ihr =>
    rw [nulterminate, ihl, ihr, Cmd.words, terminate, terminate, terminate, List.foldl_append]
  | back cmd ih => exact ih buf

/-- Every character of a word is still there. -/
structure Intact (str : Str) (buf : Text) : Prop where
  length : buf.length = str.text.length + 1
  letters : ∀ (i : Nat) (c : BitVec 8), str.text[i]? = some c → wordChar c = true → buf[i]? = some c

theorem intact_start (str : Str) : Intact str (str.text ++ [0#8]) := by
  refine ⟨by simp, fun i c here letter => ?_⟩
  rw [List.getElem?_append_left (List.getElem?_eq_some_iff.mp here).1]
  exact here

theorem Intact.set {buf : Text} (intact : Intact str buf) (reads : Reads str.text w x) :
    Intact str (buf.set w.eq 0#8) := by
  refine ⟨by rw [List.length_set, intact.length], fun i c here letter => ?_⟩
  have apart : w.eq ≠ i := by
    rintro rfl
    rw [reads.stops c here] at letter
    cases letter
  rw [List.getElem?_set_ne apart]
  exact intact.letters i c here letter

theorem zero_set {buf : Text} {i : Nat} (zero : buf[i]? = some 0#8) (j : Nat) : (buf.set j 0#8)[i]? = some 0#8 := by
  have inside := (List.getElem?_eq_some_iff.mp zero).1
  by_cases same : j = i
  · rw [same, List.getElem?_set_self inside]
  · rw [List.getElem?_set_ne same, zero]

theorem zero_terminate {buf : Text} {i : Nat} (zero : buf[i]? = some 0#8) (ws : List Span) :
    (terminate buf ws)[i]? = some 0#8 := by
  induction ws generalizing buf with
  | nil => exact zero
  | cons w ws ih => exact ih (zero_set zero w.eq)

theorem terminate_spec {buf : Text} (intact : Intact str buf) (ws : List Span)
    (each : ∀ w ∈ ws, ∃ x, Reads str.text w x) :
    Intact str (terminate buf ws) ∧ ∀ w ∈ ws, (terminate buf ws)[w.eq]? = some 0#8 := by
  induction ws generalizing buf with
  | nil => exact ⟨intact, nofun⟩
  | cons w ws ih =>
    obtain ⟨x,reads⟩ := each w List.mem_cons_self
    obtain ⟨whole,zeros⟩ := ih (intact.set reads) fun v member => each v (List.mem_cons_of_mem _ member)
    refine ⟨whole, fun v member => ?_⟩
    rcases List.mem_cons.mp member with rfl | later
    · refine zero_terminate ?_ ws
      have inside := reads.inside
      rw [List.getElem?_set_self (by rw [intact.length]; omega)]
    · exact zeros v later

theorem drop_of_getElem {buf : Text} {q : Nat} {c : BitVec 8} (here : buf[q]? = some c) :
    buf.drop q = c :: buf.drop (q + 1) := by
  obtain ⟨inside,same⟩ := List.getElem?_eq_some_iff.mp here
  rw [List.drop_eq_getElem_cons inside, same]

theorem cstring_eq {buf : Text} {q : Nat} (here : ∀ (k : Nat) (c : BitVec 8), x[k]? = some c → buf[q + k]? = some c)
    (zero : buf[q + x.length]? = some 0#8) (clean : 0#8 ∉ x) : cstring buf q = x := by
  induction x generalizing q with
  | nil =>
    have nul : buf[q]? = some 0#8 := zero
    rw [cstring, drop_of_getElem nul]
    rfl
  | cons c x ih =>
    have first : buf[q]? = some c := here 0 c rfl
    have char : c ≠ 0#8 := fun nul => clean (nul ▸ List.mem_cons_self)
    have rest : cstring buf (q + 1) = x := by
      refine ih (fun k d later => ?_) ?_ fun member => clean (List.mem_cons_of_mem c member)
      · rw [Nat.add_assoc, Nat.add_comm 1]
        exact here (k + 1) d later
      · rw [Nat.add_assoc, Nat.add_comm 1]
        exact zero
    rw [cstring, drop_of_getElem first, List.takeWhile_cons_of_pos (by simpa using char)]
    exact congrArg (c :: ·) rest

theorem Reads.character {k : Nat} {c : BitVec 8} (reads : Reads str.text w x) (here : x[k]? = some c) :
    str.text[w.q + k]? = some c := by
  rw [← List.getElem?_drop, reads.text, List.getElem?_append_left (List.getElem?_eq_some_iff.mp here).1]
  exact here

theorem cstring_word {buf : Text} (intact : Intact str buf) (reads : Reads str.text w x)
    (zero : buf[w.eq]? = some 0#8) : cstring buf w.q = x := by
  refine cstring_eq (fun k c here => ?_) ?_ fun member => ?_
  · exact intact.letters _ c (reads.character here) (reads.letters c (List.mem_of_getElem? here))
  · rw [← reads.ends]
    exact zero
  · obtain ⟨k,here⟩ := List.getElem?_of_mem member
    exact str.ended (List.mem_of_getElem? (reads.character here))

theorem nulterminate_reads {cmd : Cmd Span} {c : Cmd Text} (same : Matches (Reads str.text) cmd c) :
    cmd.map (fun w => cstring (nulterminate cmd (str.text ++ [0#8])) w.q) = c := by
  obtain ⟨intact,zeros⟩ := terminate_spec (intact_start str) cmd.words same.reads
  refine same.map_eq fun w member x reads => ?_
  rw [nulterminate_eq]
  exact cstring_word intact reads (zeros w member)

end Buffer

section Parsecmd

theorem parsecmd_tracks (str : Str) (fuel : Nat) :
    Tracks (Phrase str) (parseline str.text fuel 0) (line (MAXARGS - 1) fuel (tokens str.text)) :=
  (parse_follows str fuel).1 0 _ ⟨Nat.zero_le _, rfl⟩

theorem tokens_length (cs : Text) : (tokens cs).length ≤ cs.length := by
  induction cs using tokens.induct with
  | case1 =>
    rw [tokens]
    exact Nat.zero_le _
  | case2 c cs blank ih =>
    rw [tokens, if_pos blank]
    exact Nat.le_succ_of_le ih
  | case3 c cs visible ih =>
    rw [tokens, if_neg visible]
    exact Nat.succ_le_succ (Nat.le_trans ih (token_shorter c cs))

theorem At.end_iff {str : Str} {s : Nat} {ts : List (Token Text)} (here : At str s ts) :
    skip str.text s = str.text.length ↔ ts = [] := by
  have behind := here.skipped
  constructor
  · intro last
    rw [← behind.ahead, last, List.drop_length, tokens]
  · intro none
    rcases skip_cases str.text s with empty | ⟨c,cs,ahead,visible⟩
    · have past := List.drop_eq_nil_iff.mp empty
      exact Nat.le_antisymm behind.inside past
    · have more := behind.ahead
      rw [none, ahead, tokens_cons visible] at more
      cases more

theorem parsecmd_ok {str : Str} {fuel s : Nat} {cmd : Cmd Span} (run : parseline str.text fuel 0 = .ok (cmd, s)) :
    parsecmd str.text fuel =
      if skip str.text s ≠ str.text.length then
        .error (.panic (chars "leftovers: " ++ str.text.drop (skip str.text s) ++ chars "\n") "syntax")
      else .ok ⟨cmd, skip str.text s, nulterminate cmd (str.text ++ [0#8])⟩ := by
  rw [parsecmd, run]
  rfl

/-- The parser takes exactly the strings whose tokens are derived with at most `MAXARGS - 1` words in
    a command. It then ends behind the string, with the command of the one derivation, whose words
    and files are strings of the buffer; it panics on any other string. -/
theorem parsecmd_spec (str : Str) {fuel : Nat} (enough : 4 * str.text.length + 4 ≤ fuel) :
    (∀ parsed, parsecmd str.text fuel = .ok parsed → parsed.s = str.text.length ∧
      ∃ t, Derives (MAXARGS - 1) t (tokens str.text) ∧
        parsed.cmd.map (fun w => cstring parsed.buf w.q) = command t ∧
        ∀ u, Derives (MAXARGS - 1) u (tokens str.text) → u = t) ∧
    ∀ halt, parsecmd str.text fuel = .error halt →
      (∃ printed message, halt = .panic printed message) ∧
        ∀ t, ¬ Derives (MAXARGS - 1) t (tokens str.text) := by
  have short := tokens_length str.text
  have fueled := (parse_fueled (MAXARGS - 1) fuel).1 (tokens str.text) (by omega)
  have tracks := parsecmd_tracks str fuel
  have derives (t : Tree Text .line) : Derives (MAXARGS - 1) t (tokens str.text) ↔
      line (MAXARGS - 1) fuel (tokens str.text) = .ok (t, []) := derives_iff (by omega)
  cases parse : line (MAXARGS - 1) fuel (tokens str.text) with
  | error stop =>
    cases stop with
    | fuel => exact absurd parse fueled
    | refused =>
      rw [parse] at tracks derives
      obtain ⟨printed,message,run⟩ := tracks
      have halts : parsecmd str.text fuel = .error (.panic printed message) := by
        rw [parsecmd, run]
        rfl
      rw [halts]
      refine ⟨nofun, fun halt stop => ?_⟩
      cases stop
      refine ⟨⟨printed,message,rfl⟩, fun t derivation => ?_⟩
      cases (derives t).mp derivation
  | ok result =>
    rw [parse] at tracks derives
    obtain ⟨⟨cmd,s⟩,run,same,here⟩ := tracks
    obtain ⟨t,rest⟩ := result
    rw [parsecmd_ok run]
    by_cases last : skip str.text s = str.text.length
    · obtain rfl := here.end_iff.mp last
      have whole := (derives t).mpr rfl
      rw [if_neg (not_not_intro last)]
      refine ⟨fun parsed done => ?_, nofun⟩
      cases done
      exact ⟨last, t, whole, nulterminate_reads same, fun u other => other.unique whole⟩
    · rw [if_pos last]
      refine ⟨nofun, fun halt stop => ?_⟩
      cases stop
      refine ⟨⟨_,_,rfl⟩, fun u derivation => ?_⟩
      cases (derives u).mp derivation
      exact last (here.end_iff.mpr rfl)

/-- The command of `a>b` writes to `b`. -/
theorem parsecmd_spec_redirect : ∃ t, Derives (MAXARGS - 1) t (tokens (chars "a>b")) ∧
    command t = .redir (.exec [chars "a"]) (chars "b") (O_WRONLY ||| O_CREATE) 1 := by
  have run : parsecmd (chars "a>b") 16 =
      .ok ⟨.redir (.exec [⟨0,1⟩]) ⟨2,3⟩ (O_WRONLY ||| O_CREATE) 1, 3, chars "a" ++ [0#8] ++ chars "b" ++ [0#8]⟩ := rfl
  have spec := (parsecmd_spec ⟨chars "a>b", by decide⟩ (show 4 * (chars "a>b").length + 4 ≤ 16 by decide)).1 _ run
  obtain ⟨_,t,derives,same,_⟩ := spec
  exact ⟨t, derives, same.symm⟩

end Parsecmd

end Xv6Sh
