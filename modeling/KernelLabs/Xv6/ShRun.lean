import KernelLabs.Lib.Transition
import KernelLabs.Xv6.ShParse
import Mathlib.Logic.Function.Basic
import Mathlib.Data.Fintype.Basic
import Mathlib.Tactic.FinCases

/-!
How the shell runs a command (`runcmd`): the processes it forks, each with its own descriptors, in
any order of their system calls. A process is named by the forks that lead to it, a pipe by the
process that makes it.
-/
namespace Xv6Sh
open CommandLines Transition

section Processes
variable {W : Type}

abbrev NOFILE : Nat := 16

abbrev Name : Type := List Nat

/-- What a descriptor refers to. -/
inductive Desc (W : Type)
  | given (k : Nat)
  | file (name : W) (mode : Nat)
  | readEnd (maker : Name)
  | writeEnd (maker : Name)

abbrev Table (W : Type) : Type := Fin NOFILE → Option (Desc W)

/-- The system calls that a process of the shell still has to make. `p0` and `p1` are `p[0]` and
    `p[1]`. -/
inductive Code (W : Type)
  | exit
  | close (fd : Nat) (next : Code W)
  | closeP0 (next : Code W)
  | closeP1 (next : Code W)
  | dupP0 (next : Code W)
  | dupP1 (next : Code W)
  | open (file : W) (mode : Nat) (next : Code W)
  | pipe (next : Code W)
  | fork (child next : Code W)
  | wait (next : Code W)
  | exec (argv : List W) (next : Code W)

def runcmd : Cmd W → Code W
  | .exec [] => .exit
  | .exec (arg :: argv) => .exec (arg :: argv) .exit
  | .redir cmd file mode fd => .close fd (.open file mode (runcmd cmd))
  | .list left right => .fork (runcmd left) (.wait (runcmd right))
  | .pipe left right =>
    .pipe
      (.fork (.close 1 (.dupP1 (.closeP0 (.closeP1 (runcmd left)))))
        (.fork (.close 0 (.dupP0 (.closeP0 (.closeP1 (runcmd right)))))
          (.closeP0 (.closeP1 (.wait (.wait .exit))))))
  | .back cmd => .fork (runcmd cmd) .exit

/-- `forks` counts the children so far. -/
structure Shell (W : Type) where
  code : Code W
  fds : Table W
  p0 : Fin NOFILE
  p1 : Fin NOFILE
  forks : Nat

inductive Process (W : Type)
  | absent
  | shell (x : Shell W)
  | program (argv : List W) (fds : Table W)
  | zombie
  | gone

abbrev Processes (W : Type) : Type := Name → Process W

def Table.close (fds : Table W) (fd : Nat) : Table W := fun k => if (k : Nat) = fd then none else fds k

/-- `fdalloc`. -/
def Table.free (fds : Table W) : Option (Fin NOFILE) := (List.finRange NOFILE).find? fun fd => (fds fd).isNone

def Table.set (fds : Table W) (fd : Fin NOFILE) (d : Desc W) : Table W := Function.update fds fd (some d)

def Table.dup (fds : Table W) (old : Fin NOFILE) : Table W :=
  match fds old, fds.free with
  | some d, some fd => fds.set fd d
  | _, _ => fds

/-- `pipe`: the table and `p`. -/
def Table.pipe (fds : Table W) (maker : Name) : Option (Table W × Fin NOFILE × Fin NOFILE) := do
  let p0 ← fds.free
  let fds := fds.set p0 (.readEnd maker)
  let p1 ← fds.free
  return (fds.set p1 (.writeEnd maker), p0, p1)

/-- A step of one process: its next call, where `ok` tells whether a call that may fail succeeds; a
    `wait` for a child; the end of a program. -/
inductive Action
  | call (who : Name) (ok : Bool)
  | reap (who : Name) (child : Nat)
  | finish (who : Name)

def Processes.set (s : Processes W) (who : Name) (x : Process W) : Processes W := Function.update s who x

/-- The calls of a shell that change no other process. A failed `open` or `pipe` ends it. -/
def Shell.call (x : Shell W) (who : Name) (ok : Bool) : Process W :=
  match x.code with
  | .exit => .zombie
  | .close fd next => .shell { x with code := next, fds := x.fds.close fd }
  | .closeP0 next => .shell { x with code := next, fds := x.fds.close x.p0 }
  | .closeP1 next => .shell { x with code := next, fds := x.fds.close x.p1 }
  | .dupP0 next => .shell { x with code := next, fds := x.fds.dup x.p0 }
  | .dupP1 next => .shell { x with code := next, fds := x.fds.dup x.p1 }
  | .open file mode next =>
    match ok, x.fds.free with
    | true, some fd => .shell { x with code := next, fds := x.fds.set fd (.file file mode) }
    | _, _ => .zombie
  | .pipe next =>
    match ok, x.fds.pipe who with
    | true, some (fds, p0, p1) => .shell { x with code := next, fds := fds, p0 := p0, p1 := p1 }
    | _, _ => .zombie
  | .exec argv next => if ok then .program argv x.fds else .shell { x with code := next }
  | .fork _ _ | .wait _ => .shell x

/-- `wait` returns at once when there is no child. -/
def Processes.childless (s : Processes W) (who : Name) (forks : Nat) : Bool :=
  (List.range forks).all fun k => match s (who ++ [k]) with
    | .gone => true
    | _ => false

def next (s : Processes W) : Action → Option (Processes W)
  | .call who ok =>
    match s who with
    | .shell x =>
      match x.code with
      | .fork child rest =>
        if ok then
          some ((s.set who (.shell { x with code := rest, forks := x.forks + 1 })).set (who ++ [x.forks])
            (.shell { x with code := child, forks := 0 }))
        else some (s.set who .zombie)
      | .wait rest => if s.childless who x.forks then some (s.set who (.shell { x with code := rest })) else none
      | _ => some (s.set who (x.call who ok))
    | _ => none
  | .reap who child =>
    match s who, s (who ++ [child]) with
    | .shell x, .zombie =>
      match x.code with
      | .wait rest => some ((s.set who (.shell { x with code := rest })).set (who ++ [child]) .gone)
      | _ => none
    | _, _ => none
  | .finish who =>
    match s who with
    | .program _ _ => some (s.set who .zombie)
    | _ => none

/-- Standard input, output and error. -/
abbrev Wiring (W : Type) : Type := Fin 3 → Desc W

def Wiring.set (w : Wiring W) (fd : Nat) (d : Desc W) : Wiring W := fun k => if (k : Nat) = fd then d else w k

/-- These descriptors and no others. -/
def standard (w : Wiring W) : Table W := fun k => if h : (k : Nat) < 3 then some (w ⟨k, h⟩) else none

/-- The shell's child of `main`, with the parsed command. -/
def launched (cmd : Cmd W) (w : Wiring W) : Processes W := fun name =>
  if name = [] then .shell ⟨runcmd cmd, standard w, ⟨0, by decide⟩, ⟨0, by decide⟩, 0⟩ else .absent

def system (cmd : Cmd W) (w : Wiring W) : System (Processes W) Action where
  start s := s = launched cmd w
  next := next

end Processes

section Wirings
variable {W : Type}

inductive Point (W : Type)
  | runs (argv : List W)
  | waits

/-- Which process runs or waits with which descriptors, when every call succeeds. A process has
    forked `n` times before. -/
def plumb (who : Name) (n : Nat) (w : Wiring W) : Cmd W → List (Name × Point W × Wiring W)
  | .exec [] => []
  | .exec (arg :: argv) => [(who, .runs (arg :: argv), w)]
  | .redir cmd file mode fd => plumb who n (w.set fd (.file file mode)) cmd
  | .list left right => plumb (who ++ [n]) 0 w left ++ (who, .waits, w) :: plumb who (n + 1) w right
  | .pipe left right =>
    plumb (who ++ [n]) 0 (w.set 1 (.writeEnd who)) left ++
      (plumb (who ++ [n + 1]) 0 (w.set 0 (.readEnd who)) right ++ [(who, .waits, w), (who, .waits, w)])
  | .back cmd => plumb (who ++ [n]) 0 w cmd

/-- The same for the calls that are left, with the tables as they then are. -/
def visits (who : Name) (n : Nat) (fds : Table W) (p0 p1 : Fin NOFILE) : Code W → List (Name × Point W × Table W)
  | .exit => []
  | .close fd next => visits who n (fds.close fd) p0 p1 next
  | .closeP0 next => visits who n (fds.close p0) p0 p1 next
  | .closeP1 next => visits who n (fds.close p1) p0 p1 next
  | .dupP0 next => visits who n (fds.dup p0) p0 p1 next
  | .dupP1 next => visits who n (fds.dup p1) p0 p1 next
  | .open file mode next =>
    match fds.free with
    | some fd => visits who n (fds.set fd (.file file mode)) p0 p1 next
    | none => []
  | .pipe next =>
    match fds.pipe who with
    | some (fds, p0, p1) => visits who n fds p0 p1 next
    | none => []
  | .fork child next => visits (who ++ [n]) 0 fds p0 p1 child ++ visits who (n + 1) fds p0 p1 next
  | .wait next => (who, .waits, fds) :: visits who n fds p0 p1 next
  | .exec argv next => (who, .runs argv, fds) :: visits who n fds p0 p1 next

/-- Redirections of the three descriptors only. -/
def Cmd.Plain : Cmd W → Prop
  | exec _ => True
  | redir cmd _ _ fd => fd < 3 ∧ cmd.Plain
  | pipe left right => left.Plain ∧ right.Plain
  | list left right => left.Plain ∧ right.Plain
  | back cmd => cmd.Plain

theorem redirected_plain (cmd : Cmd W) (rs : List (Redir W)) (plain : cmd.Plain) : (redirected cmd rs).Plain := by
  induction rs generalizing cmd with
  | nil => exact plain
  | cons r rs ih =>
    refine ih _ ⟨?_,plain⟩
    cases r.mode <;> decide

theorem backs_plain (cmd : Cmd W) (k : Nat) (plain : cmd.Plain) : (backs cmd k).Plain := by
  induction k generalizing cmd with
  | zero => exact plain
  | succ k ih => exact ih _ plain

theorem command_plain {n : Nonterminal} (t : Tree W n) : (command t).Plain := by
  induction t with
  | last p amps ih => exact backs_plain _ amps ih
  | seq p amps rest ih ih' => exact ⟨backs_plain _ amps ih, ih'⟩
  | one e ih => exact ih
  | piped e rest ih ih' => exact ⟨ih,ih'⟩
  | block l rs ih => exact redirected_plain _ rs ih
  | simple rs args => exact redirected_plain _ _ trivial

theorem redirect_standard (w : Wiring W) (d : Desc W) {fd : Nat} (low : fd < 3) :
    ∃ k, ((standard w).close fd).free = some k ∧ ((standard w).close fd).set k d = standard (w.set fd d) := by
  match fd, low with
  | 0, _ =>
    refine ⟨⟨0, by decide⟩, rfl, funext fun k => ?_⟩
    fin_cases k <;> rfl
  | 1, _ =>
    refine ⟨⟨1, by decide⟩, rfl, funext fun k => ?_⟩
    fin_cases k <;> rfl
  | 2, _ =>
    refine ⟨⟨2, by decide⟩, rfl, funext fun k => ?_⟩
    fin_cases k <;> rfl

def three : Fin NOFILE := ⟨3, by decide⟩

def four : Fin NOFILE := ⟨4, by decide⟩

/-- The table behind `pipe`. -/
def piped (w : Wiring W) (who : Name) : Table W := ((standard w).set three (.readEnd who)).set four (.writeEnd who)

theorem pipe_standard (w : Wiring W) (who : Name) : (standard w).pipe who = some (piped w who, three, four) := rfl

theorem piped_left (w : Wiring W) (who : Name) :
    ((((piped w who).close 1).dup four).close three).close four = standard (w.set 1 (.writeEnd who)) := by
  funext k
  fin_cases k <;> rfl

theorem piped_right (w : Wiring W) (who : Name) :
    ((((piped w who).close 0).dup three).close three).close four = standard (w.set 0 (.readEnd who)) := by
  funext k
  fin_cases k <;> rfl

theorem piped_parent (w : Wiring W) (who : Name) : ((piped w who).close three).close four = standard w := by
  funext k
  fin_cases k <;> rfl

def settled (v : Name × Point W × Wiring W) : Name × Point W × Table W := (v.1, v.2.1, standard v.2.2)

/-- The calls of `runcmd` make the descriptors that the command asks for. -/
theorem visits_runcmd (cmd : Cmd W) (plain : cmd.Plain) (who : Name) (n : Nat) (w : Wiring W) (p0 p1 : Fin NOFILE) :
    visits who n (standard w) p0 p1 (runcmd cmd) = (plumb who n w cmd).map settled := by
  induction cmd generalizing who n w p0 p1 with
  | exec argv => cases argv <;> rfl
  | redir cmd file mode fd ih =>
    obtain ⟨k,free,same⟩ := redirect_standard w (.file file mode) plain.1
    rw [runcmd, visits, visits, free]
    dsimp only
    rw [same, ih plain.2, plumb]
  | pipe left right ihl ihr =>
    rw [runcmd, visits, pipe_standard]
    dsimp only [visits]
    rw [piped_left, piped_right, piped_parent, ihl plain.1, ihr plain.2, plumb]
    simp [settled]
  | list left right ihl ihr =>
    rw [runcmd, visits, visits, ihl plain.1, ihr plain.2, plumb]
    simp [settled]
  | back cmd ih =>
    rw [runcmd, visits, visits, ih plain, plumb, List.append_nil]

end Wirings

section Runs
variable {W : Type} {cmd : Cmd W} {w : Wiring W} {s t : Processes W} {who : Name}

def Shell.visits (x : Shell W) (who : Name) : List (Name × Point W × Table W) :=
  Xv6Sh.visits who x.forks x.fds x.p0 x.p1 x.code

/-- What the process is at, and may still be at, is among `total`. -/
def Expected (total : List (Name × Point W × Table W)) (who : Name) : Process W → Prop
  | .shell x => x.visits who ⊆ total
  | .program argv fds => (who, .runs argv, fds) ∈ total
  | _ => True

theorem set_expected {total : List (Name × Point W × Table W)} {x : Process W} (each : ∀ name, Expected total name (s name))
    (here : Expected total who x) : ∀ name, Expected total name (s.set who x name) := by
  intro name
  unfold Processes.set
  by_cases same : name = who
  · rw [same, Function.update_self]
    exact here
  · rw [Function.update_of_ne same]
    exact each name

theorem call_expected {total : List (Name × Point W × Table W)} {x : Shell W} (ok : Bool) (before : x.visits who ⊆ total) :
    Expected total who (x.call who ok) := by
  unfold Shell.visits at before
  unfold Shell.call
  split <;> rename_i here <;> rw [here] at before
  case h_1 => trivial
  case h_7 file mode next =>
    rw [visits] at before
    split
    · rename_i free
      rw [free] at before
      exact before
    · trivial
  case h_8 next =>
    rw [visits] at before
    split
    · rename_i free
      rw [free] at before
      exact before
    · trivial
  case h_9 argv next =>
    have all := List.cons_subset.mp before
    cases ok
    · exact all.2
    · exact all.1
  case h_10 | h_11 =>
    show x.visits who ⊆ total
    rw [Shell.visits, here]
    exact before
  all_goals exact before

theorem wait_expected {total : List (Name × Point W × Table W)} {x : Shell W} {rest : Code W}
    (each : ∀ name, Expected total name (s name)) (here : s who = .shell x) (code : x.code = .wait rest) :
    ∀ name, Expected total name (s.set who (.shell { x with code := rest }) name) := by
  have before := each who
  rw [here] at before
  change x.visits who ⊆ total at before
  rw [Shell.visits, code] at before
  exact set_expected each (List.cons_subset.mp before).2

theorem fork_expected {total : List (Name × Point W × Table W)} {x : Shell W} {child rest : Code W}
    (each : ∀ name, Expected total name (s name)) (here : s who = .shell x) (code : x.code = .fork child rest) :
    ∀ name, Expected total name (((s.set who (.shell { x with code := rest, forks := x.forks + 1 })).set
      (who ++ [x.forks]) (.shell { x with code := child, forks := 0 })) name) := by
  have before := each who
  rw [here] at before
  change x.visits who ⊆ total at before
  rw [Shell.visits, code, visits] at before
  obtain ⟨first,second⟩ := List.append_subset.mp before
  exact set_expected (set_expected each second) first

theorem next_expected {total : List (Name × Point W × Table W)} {a : Action} (each : ∀ name, Expected total name (s name))
    (run : next s a = some t) : ∀ name, Expected total name (t name) := by
  cases a with
  | call who ok =>
    rw [next] at run
    split at run
    · rename_i x here
      split at run
      · rename_i child rest code
        split at run
        · cases run
          exact fork_expected each here code
        · cases run
          exact set_expected each trivial
      · rename_i rest code
        split at run
        · cases run
          exact wait_expected each here code
        · cases run
      · cases run
        have before := each who
        rw [here] at before
        exact set_expected each (call_expected ok before)
    · cases run
  | reap who child =>
    rw [next] at run
    split at run
    · rename_i x here dead
      split at run
      · rename_i rest code
        cases run
        exact set_expected (wait_expected each here code) trivial
      · cases run
    · cases run
  | finish who =>
    rw [next] at run
    split at run
    · cases run
      exact set_expected each trivial
    · cases run

/-- The point and the descriptors of a process that runs a program or waits. -/
inductive AtPoint (s : Processes W) (who : Name) : Point W → Table W → Prop
  | runs {argv : List W} {fds : Table W} (here : s who = .program argv fds) : AtPoint s who (.runs argv) fds
  | waits {x : Shell W} {rest : Code W} (here : s who = .shell x) (code : x.code = .wait rest) :
      AtPoint s who .waits x.fds

theorem reach_expected (plain : cmd.Plain) (reach : (system cmd w).Reach System.Free s) :
    ∀ name, Expected ((plumb [] 0 w cmd).map settled) name (s name) := by
  refine System.reach_invariant (system cmd w)
    (I := fun s => ∀ name, Expected ((plumb [] 0 w cmd).map settled) name (s name)) ?_ ?_ reach
  · rintro s rfl name
    unfold launched
    split
    · rename_i first
      subst first
      change visits [] 0 (standard w) _ _ (runcmd cmd) ⊆ _
      rw [visits_runcmd cmd plain]
      exact List.Subset.refl _
    · trivial
  · intro s a t each _ run
    exact next_expected each run

/-- However the processes of a command line are scheduled and whichever calls fail, one that runs a
    program or waits has the three descriptors that the command gives it and no others. -/
theorem runcmd_descriptors (line : Tree W .line) (w : Wiring W) (reach : (system (command line) w).Reach System.Free s)
    {point : Point W} {fds : Table W} (here : AtPoint s who point fds) :
    ∃ v, (who, point, v) ∈ plumb [] 0 w (command line) ∧ fds = standard v := by
  have expected := reach_expected (command_plain line) reach who
  have member : (who, point, fds) ∈ (plumb [] 0 w (command line)).map settled := by
    cases here with
    | runs here =>
      rw [here] at expected
      exact expected
    | waits here code =>
      rw [here] at expected
      change Shell.visits _ who ⊆ _ at expected
      rw [Shell.visits, code] at expected
      exact expected List.mem_cons_self
  obtain ⟨⟨name,p,v⟩,listed,same⟩ := List.mem_map.mp member
  cases same
  exact ⟨v,listed,rfl⟩

/-- `1 | 2`, whose left side runs. -/
def pipeline : Tree Nat .line := .last (.piped (.simple [] [(1, [])]) (.one (.simple [] [(2, [])]))) 0

def leftRuns : List Action := [.call [] true, .call [] true, .call [0] true, .call [0] true, .call [0] true,
  .call [0] true, .call [0] true]

theorem runcmd_descriptors_left : ∃ s fds, (system (command pipeline) fun k => .given k).Reach System.Free s ∧
    AtPoint s [0] (.runs [1]) fds ∧ ∃ v, ([0], .runs [1], v) ∈ plumb [] 0 (fun k => .given k) (command pipeline) ∧ fds = standard v := by
  have run : System.exec next (launched (command pipeline) fun k => .given k) leftRuns = some _ := rfl
  have reach : (system (command pipeline) fun k => .given k).Reach System.Free _ :=
    System.exec_reach leftRuns (fun _ _ _ => trivial) (.start rfl) run
  exact ⟨_, _, reach, .runs rfl, runcmd_descriptors pipeline _ reach (.runs rfl)⟩

end Runs

end Xv6Sh
