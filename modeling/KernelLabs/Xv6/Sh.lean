import KernelLabs.Lib.CommandLines

/-!
The shell's parser (`sh.c`). A string is followed by a NUL and has none; a pointer into it is an
index. `es` points at the NUL.
-/
namespace Xv6Sh

abbrev Text : Type := List (BitVec 8)

def code (c : Char) : BitVec 8 := BitVec.ofNat 8 c.toNat

def chars (s : String) : Text := s.toList.map code

/-- A string in front of its NUL. -/
structure Str where
  text : Text
  ended : 0#8 ∉ text

/-- `*s`. -/
def deref (str : Text) (s : Nat) : BitVec 8 := str.getD s 0#8

def MAXARGS : Nat := 10
def O_RDONLY : Nat := 0x000
def O_WRONLY : Nat := 0x001
def O_CREATE : Nat := 0x200

section Commands

/-- A `struct cmd *`. The words of `argv` end at the first null pointer. -/
inductive Cmd (W : Type)
  | exec (argv : List W)
  | redir (cmd : Cmd W) (file : W) (mode fd : Nat)
  | pipe (left right : Cmd W)
  | list (left right : Cmd W)
  | back (cmd : Cmd W)

/-- From `q` to before `eq`. -/
structure Span where
  q : Nat
  eq : Nat

variable {W : Type}

/-- `cmd->argv[argc] = q` and `cmd->eargv[argc] = eq`, for the `execcmd` that the redirections of
    `ret` are put around. -/
def Cmd.push (w : W) : Cmd W → Cmd W
  | exec argv => exec (argv ++ [w])
  | redir cmd file mode fd => redir (cmd.push w) file mode fd
  | pipe left right => pipe left right
  | list left right => list left right
  | back cmd => back cmd

/-- Every `*eargv[i] = 0` and `*efile = 0`, in a buffer with the NUL. -/
def nulterminate : Cmd Span → Text → Text
  | .exec argv, buf => argv.foldl (fun buf w => buf.set w.eq 0#8) buf
  | .redir cmd file _ _, buf => (nulterminate cmd buf).set file.eq 0#8
  | .pipe left right, buf => nulterminate right (nulterminate left buf)
  | .list left right, buf => nulterminate right (nulterminate left buf)
  | .back cmd, buf => nulterminate cmd buf

end Commands

section Scanner

def whitespace : Text := [code ' ', code '\t', code '\r', code '\n', 11#8]

def symbols : Text := chars "<|>&;()"

def white (c : BitVec 8) : Bool := whitespace.contains c

def wordChar (c : BitVec 8) : Bool := !whitespace.contains c && !symbols.contains c

/-- `while(s < es && p(*s)) s++`, with `left` characters in front of `es`. -/
def scan (p : BitVec 8 → Bool) (str : Text) : Nat → Nat → Nat
  | 0, s => s
  | left + 1, s => if p (deref str s) then scan p str left (s + 1) else s

def skip (str : Text) (s : Nat) : Nat := scan white str (str.length - s) s

structure Got where
  ret : BitVec 8
  word : Span
  s : Nat

/-- What `gettoken` returns for the character at `s`, and `*eq`. -/
def classify (str : Text) (s : Nat) : BitVec 8 × Nat :=
  let c := deref str s
  if c = 0#8 then (c, s)
  else if c = code '|' ∨ c = code '(' ∨ c = code ')' ∨ c = code ';' ∨ c = code '&' ∨ c = code '<' then (c, s + 1)
  else if c = code '>' then
    if deref str (s + 1) = code '>' then (code '+', s + 2) else (c, s + 1)
  else (code 'a', scan wordChar str (str.length - s) s)

def gettoken (str : Text) (s : Nat) : Got :=
  let q := skip str s
  let (ret, eq) := classify str q
  ⟨ret, ⟨q, eq⟩, skip str eq⟩

/-- Whether the next character is one of `toks`, and `*ps`. -/
def peek (str : Text) (s : Nat) (toks : Text) : Bool × Nat :=
  let s := skip str s
  (deref str s ≠ 0#8 && toks.contains (deref str s), s)

end Scanner

section Parser

/-- The shell exits; `printed` is what it prints before the message. -/
inductive Halt
  | panic (printed : Text) (message : String)
  | fuel

def panic {α : Type} (message : String) : Except Halt α := .error (.panic [] message)

variable (str : Text)

def parseredirs : Nat → Cmd Span → Nat → Except Halt (Cmd Span × Nat)
  | 0, _, _ => .error .fuel
  | fuel + 1, cmd, s =>
    let (more, s) := peek str s (chars "<>")
    if more then
      let tok := gettoken str s
      let file := gettoken str tok.s
      if file.ret ≠ code 'a' then panic "missing file for redirection"
      else
        let cmd :=
          if tok.ret = code '<' then .redir cmd file.word O_RDONLY 0
          else if tok.ret = code '>' then .redir cmd file.word (O_WRONLY ||| O_CREATE) 1
          else if tok.ret = code '+' then .redir cmd file.word (O_WRONLY ||| O_CREATE) 1
          else cmd
        parseredirs fuel cmd file.s
    else .ok (cmd, s)

/-- The loop of `parseline` over `&`. -/
def parsebacks : Nat → Cmd Span → Nat → Except Halt (Cmd Span × Nat)
  | 0, _, _ => .error .fuel
  | fuel + 1, cmd, s =>
    let (more, s) := peek str s (chars "&")
    if more then parsebacks fuel (.back cmd) (gettoken str s).s else .ok (cmd, s)

/-- The loop of `parseexec`. -/
def parseargs : Nat → Nat → Cmd Span → Nat → Except Halt (Cmd Span × Nat)
  | 0, _, _, _ => .error .fuel
  | fuel + 1, argc, ret, s =>
    let (stop, s) := peek str s (chars "|)&;")
    if stop then .ok (ret, s)
    else
      let tok := gettoken str s
      if tok.ret = 0#8 then .ok (ret, tok.s)
      else if tok.ret ≠ code 'a' then panic "syntax"
      else if MAXARGS ≤ argc + 1 then panic "too many args"
      else do
        let (ret, s) ← parseredirs str fuel (ret.push tok.word) tok.s
        parseargs fuel (argc + 1) ret s

mutual

def parseline : Nat → Nat → Except Halt (Cmd Span × Nat)
  | 0, _ => .error .fuel
  | fuel + 1, s => do
    let (cmd, s) ← parsepipe fuel s
    let (cmd, s) ← parsebacks str fuel cmd s
    let (more, s) := peek str s (chars ";")
    if more then
      let (right, s) ← parseline fuel (gettoken str s).s
      return (.list cmd right, s)
    else return (cmd, s)
termination_by structural fuel => fuel

def parsepipe : Nat → Nat → Except Halt (Cmd Span × Nat)
  | 0, _ => .error .fuel
  | fuel + 1, s => do
    let (cmd, s) ← parseexec fuel s
    let (more, s) := peek str s (chars "|")
    if more then
      let (right, s) ← parsepipe fuel (gettoken str s).s
      return (.pipe cmd right, s)
    else return (cmd, s)
termination_by structural fuel => fuel

def parseexec : Nat → Nat → Except Halt (Cmd Span × Nat)
  | 0, _ => .error .fuel
  | fuel + 1, s =>
    let (nested, s) := peek str s (chars "(")
    if nested then parseblock fuel s
    else do
      let (ret, s) ← parseredirs str fuel (.exec []) s
      parseargs str fuel 0 ret s
termination_by structural fuel => fuel

def parseblock : Nat → Nat → Except Halt (Cmd Span × Nat)
  | 0, _ => .error .fuel
  | fuel + 1, s =>
    let (nested, s) := peek str s (chars "(")
    if !nested then panic "parseblock"
    else do
      let (cmd, s) ← parseline fuel (gettoken str s).s
      let (closed, s) := peek str s (chars ")")
      if !closed then panic "syntax - missing )"
      else parseredirs str fuel cmd (gettoken str s).s
termination_by structural fuel => fuel

end

/-- What `parsecmd` returns, where its pointer ends, and the buffer with the NULs. -/
structure Parsed where
  cmd : Cmd Span
  s : Nat
  buf : Text

def parsecmd (fuel : Nat) : Except Halt Parsed := do
  let (cmd, s) ← parseline str fuel 0
  let (_, s) := peek str s []
  if s ≠ str.length then .error (.panic (chars "leftovers: " ++ str.drop s ++ chars "\n") "syntax")
  else return ⟨cmd, s, nulterminate cmd (str ++ [0#8])⟩

end Parser

end Xv6Sh
