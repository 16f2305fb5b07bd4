import KernelLabs.Jos.Console
import KernelLabs.Lib.Transition

/-!
The monitor reads lines from the console and runs them as commands (`readline` of
`lib/readline.c`, `runcmd` and `monitor` of `kern/monitor.c`). What a command prints is given
with the step. No command returns a negative number, so the loop of `monitor` does not end. A
character from `getchar` is a byte, so `readline` has no read error.
-/
namespace JosConsole
open Screen Transition

section Readline

def BUFLEN : Nat := 1024

structure Line where
  buf : Nat → Byte
  i : Nat

/-- The body of the loop of `readline`: the line, what is echoed, and whether it returns. -/
def readlineOne (s : Line) (c : Byte) : Line × List Byte × Bool :=
  if (c = 0x08 ∨ c = 0x7f) ∧ s.i > 0 then ({ s with i := s.i - 1 }, [0x08], false)
  else if c ≥ 0x20 ∧ s.i < BUFLEN - 1 then ({ buf := Function.update s.buf s.i c, i := s.i + 1 }, [c], false)
  else if c = code '\n' ∨ c = code '\r' then ({ s with buf := Function.update s.buf s.i 0 }, [code '\n'], true)
  else (s, [], false)

end Readline

section Runcmd

def whitespace (c : Byte) : Bool := c == code '\t' || c == code '\r' || c == code '\n' || c == code ' '

def MAXARGS : Nat := 16

def bytes (s : String) : List Byte := s.toList.map code

/-- Characters as `cputchar` gets them. -/
def wide (l : List Byte) : List (BitVec 32) := l.map fun c => c.setWidth 32

def commands : List (List Byte) :=
  [bytes "help", bytes "kerninfo", bytes "backtrace", bytes "showmappings", bytes "setperm", bytes "dump"]

/-- `gobble whitespace`. -/
def gobble : Nat → (Nat → Byte) → Nat → (Nat → Byte) × Nat
  | 0, buf, p => (buf, p)
  | fuel + 1, buf, p => if buf p ≠ 0 ∧ whitespace (buf p) = true then gobble fuel (Function.update buf p 0) (p + 1) else (buf, p)

/-- `scan past next arg`. -/
def scan : Nat → (Nat → Byte) → Nat → Nat
  | 0, _, p => p
  | fuel + 1, buf, p => if buf p ≠ 0 ∧ whitespace (buf p) = false then scan fuel buf (p + 1) else p

/-- The loop over the arguments: the buffer, and the pointers unless there are too many. -/
def parseArgs : Nat → (Nat → Byte) → Nat → List Nat → (Nat → Byte) × Option (List Nat)
  | 0, buf, _, argv => (buf, some argv)
  | fuel + 1, buf, p, argv =>
    let (buf, p) := gobble BUFLEN buf p
    if buf p = 0 then (buf, some argv)
    else if argv.length = MAXARGS - 1 then (buf, none)
    else parseArgs fuel buf (scan BUFLEN buf p) (argv ++ [p])

/-- The string that a pointer points to. -/
def cstring : Nat → (Nat → Byte) → Nat → List Byte
  | 0, _, _ => []
  | fuel + 1, buf, p => if buf p = 0 then [] else buf p :: cstring fuel buf (p + 1)

/-- What becomes of a line. -/
inductive Obeyed where
  | blank
  | tooMany
  | unknown (name : List Byte)
  | ran (argv : List (List Byte))
  deriving DecidableEq

/-- The lookup, once there are arguments. -/
def lookup (argv : List (List Byte)) : Obeyed :=
  match argv with
  | [] => .blank
  | name :: _ => if name ∈ commands then .ran argv else .unknown name

def runcmd (buf : Nat → Byte) : Obeyed :=
  match parseArgs MAXARGS buf 0 [] with
  | (_, none) => .tooMany
  | (buf, some argv) => lookup (argv.map (cstring BUFLEN buf))

/-- What `runcmd` itself prints, or else `out`. The characters of `%s` are signed. -/
def message (out : List (BitVec 32)) : Obeyed → List (BitVec 32)
  | .blank => []
  | .tooMany => wide (bytes "Too many arguments (max 16)\n")
  | .unknown name => wide (bytes "Unknown command '") ++ name.map (fun c => c.signExtend 32) ++ wide (bytes "'\n")
  | .ran _ => out

end Runcmd

section Monitor

structure Monitor extends Console where
  line : Line

def Monitor.print (s : Monitor) (text : List (BitVec 32)) : Monitor :=
  { s with toConsole := text.foldl consPutc s.toConsole }

def greeting : List Byte := bytes "Welcome to the JOS kernel monitor!\nType 'help' for a list of commands.\n"

def prompt : List Byte := bytes "K> "

/-- Up to the loop of `readline`. -/
def Monitor.ask (s : Monitor) : Monitor :=
  let s := s.print (wide prompt)
  { s with line := { s.line with i := 0 } }

/-- A character that is not 0. -/
def Monitor.accept (s : Monitor) (c : Byte) (out : List (BitVec 32)) : Monitor :=
  let (line, echo, done) := readlineOne s.line c
  let s := { s with line := line }.print (wide echo)
  if done then (s.print (message out (runcmd line.buf))).ask else s

/-- A byte arrives at a device, or the monitor calls `cons_getc`. -/
inductive Action where
  | serial (data : Byte)
  | key (mouse : Bool) (data : Byte)
  | turn (out : List (BitVec 32))

def step (s : Monitor) : Action → Option Monitor
  | .serial data => some { s with serial := s.serial ++ [data] }
  | .key mouse data => some { s with kbd := s.kbd ++ [(mouse, data)] }
  | .turn out =>
    if s.rebooted then none
    else
      let (console, c) := consGetc s.toConsole
      let s := { s with toConsole := console }
      if c = 0 then some s else some (s.accept c out)

/-- A character goes into the ring, is returned by `getchar`, or ends a line that is obeyed. -/
inductive Event where
  | stored (c : Byte)
  | taken (c : Byte)
  | obeyed (o : Obeyed)
  deriving DecidableEq

/-- The characters that a call of `cons_getc` puts into the ring. -/
def incoming (s : Console) : List Byte :=
  ((if s.serialExists then s.serial else []) ++ (kbdRead s.shift s.kbd).1).filter (· ≠ 0)

def emit (s : Monitor) : Action → List Event
  | .serial _ => []
  | .key _ _ => []
  | .turn _ =>
    let c := (consGetc s.toConsole).2
    (incoming s.toConsole).map .stored ++
      if c = 0 then []
      else
        let (line, _, done) := readlineOne s.line c
        .taken c :: if done then [.obeyed (runcmd line.buf)] else []

/-- Before the loop of `readline` is entered for the first time. -/
def Start (s : Monitor) : Prop :=
  ∃ t : Monitor, t.cons.rpos = 0 ∧ t.cons.wpos = 0 ∧ t.crt.pos < CRT_SIZE ∧ t.rebooted = false ∧
    s = (t.print (wide greeting)).ask

def system : System Monitor Action where
  start := Start
  next := step

end Monitor
end JosConsole
