import Mathlib.Data.List.FinRange
import Mathlib.Data.Fintype.Basic
import Mathlib.Logic.Function.Basic
import KernelLabs.Lib.Transition

/-!
Open files and descriptors (`file.c`, the calls `open`, `dup`, `close` and `pipe` of
`sysfile.c`, `pipealloc` and `pipeclose`, and what `fork` and `exit` do to descriptors). A
step is what one process does in one go: an access to `ftable` or to a pipe under its lock,
or writes to what only the process itself can reach (its descriptors, a file that is in no
table yet, the table of a child that is not yet runnable). Each pipe has a number of its
own, also when its page was used before.
-/
namespace Xv6File
open Transition

def NPROC : Nat := 64
def NOFILE : Nat := 16
def NFILE : Nat := 100

def O_WRONLY : Nat := 0x001
def O_RDWR : Nat := 0x002

inductive FdType where
  | none
  | pipe
  | inode
  deriving DecidableEq, Repr

structure File where
  type : FdType
  ref : Nat
  readable : Bool
  writable : Bool
  pipe : Nat
  ip : Nat
  off : Nat
  deriving DecidableEq, Repr

/-- The ends that are open, and how often `kfree` was called on the page. -/
structure Pipe where
  readopen : Bool
  writeopen : Bool
  freed : Nat
  deriving DecidableEq, Repr

abbrev Table := Fin NOFILE → Option (Fin NFILE)

inductive Life where
  | unused
  | embryo
  | live
  | zombie
  deriving DecidableEq, Repr

structure Proc where
  life : Life
  pid : Nat
  ofile : Table

/-- What follows a `fileclose`: the call returns, it closes a second file first, or the
    loop of `exit` clears the descriptor. -/
inductive After where
  | ret (r : Int)
  | also (f : Fin NFILE) (r : Int)
  | clear (fd : Fin NOFILE)
  deriving DecidableEq

/-- Where a process is. -/
inductive Pc where
  | user
  | openAlloc (ip omode : Nat)
  | openFd (f : Fin NFILE) (ip omode : Nat)
  | openSet (f : Fin NFILE) (fd : Fin NOFILE) (ip omode : Nat)
  | dupRef (f : Fin NFILE) (fd : Fin NOFILE)
  | fileclose (f : Fin NFILE) (k : After)
  | pipeclose (pipe : Nat) (writable : Bool) (k : After)
  | exitClear (fd : Fin NOFILE)
  | pipeAlloc0
  | pipeAlloc1 (f0 : Fin NFILE)
  | pipeKalloc (f0 f1 : Fin NFILE)
  | pipeFd0 (f0 f1 : Fin NFILE)
  | pipeFd1 (f0 f1 : Fin NFILE) (fd0 : Fin NOFILE)
  | forkCopy (np : Fin NPROC)
  | forking (np : Fin NPROC) (i : Nat)
  | exiting (i : Nat)
  deriving DecidableEq

/-- `saved` is the table at the start of the last call, `result` what it returned. -/
structure State where
  file : Fin NFILE → File
  pipe : Nat → Pipe
  npipes : Nat
  proc : Fin NPROC → Proc
  nextpid : Nat
  pc : Fin NPROC → Pc
  saved : Fin NPROC → Table
  result : Fin NPROC → Option Int

def State.setFile (s : State) (f : Fin NFILE) (x : File) : State := { s with file := Function.update s.file f x }
def State.setPipe (s : State) (k : Nat) (x : Pipe) : State := { s with pipe := Function.update s.pipe k x }
def State.setPc (s : State) (p : Fin NPROC) (pc : Pc) : State := { s with pc := Function.update s.pc p pc }
def State.setProc (s : State) (p : Fin NPROC) (x : Proc) : State := { s with proc := Function.update s.proc p x }

def State.ofile (s : State) (p : Fin NPROC) : Table := (s.proc p).ofile
def State.ref (s : State) (f : Fin NFILE) : Nat := (s.file f).ref

def State.setFd (s : State) (p : Fin NPROC) (fd : Fin NOFILE) (f : Option (Fin NFILE)) : State :=
  s.setProc p { s.proc p with ofile := Function.update (s.proc p).ofile fd f }

def State.begins (s : State) (p : Fin NPROC) : State :=
  { s with saved := Function.update s.saved p (s.ofile p), result := Function.update s.result p none }

/-- The call returns to user space. -/
def State.returns (s : State) (p : Fin NPROC) (r : Int) : State :=
  { s.setPc p .user with result := Function.update s.result p (some r) }

/-- The first file that is free. -/
def State.freeFile (s : State) : Option (Fin NFILE) := (List.finRange NFILE).find? fun f => s.ref f == 0

/-- The descriptor that `fdalloc` takes. -/
def freeFd (table : Table) : Option (Fin NOFILE) := (List.finRange NOFILE).find? fun fd => table fd == none

/-- The slot that `allocproc` takes. -/
def State.freeProc (s : State) : Option (Fin NPROC) :=
  (List.finRange NPROC).find? fun p => (s.proc p).life == .unused

def State.filealloc (s : State) (f : Fin NFILE) : State := s.setFile f { s.file f with ref := 1 }

/-- Nothing for `panic("filedup")`. -/
def State.filedup (s : State) (f : Fin NFILE) : Option State :=
  if s.ref f < 1 then none else some (s.setFile f { s.file f with ref := s.ref f + 1 })

def State.resume (s : State) (p : Fin NPROC) : After → State
  | .ret r => s.returns p r
  | .also f r => s.setPc p (.fileclose f (.ret r))
  | .clear fd => s.setPc p (.exitClear fd)

/-- The part of `fileclose` under the lock; nothing for `panic("fileclose")`. The `iput` of
    an inode is not followed. -/
def State.fileclose (s : State) (p : Fin NPROC) (f : Fin NFILE) (k : After) : Option State :=
  if s.ref f < 1 then none
  else if s.ref f - 1 > 0 then some ((s.setFile f { s.file f with ref := s.ref f - 1 }).resume p k)
  else
    let ff := s.file f
    let s := s.setFile f { s.file f with ref := 0, type := .none }
    if ff.type = .pipe then some (s.setPc p (.pipeclose ff.pipe ff.writable k)) else some (s.resume p k)

/-- `pipeclose`: the page goes when both ends are closed. -/
def Pipe.close (x : Pipe) (writable : Bool) : Pipe :=
  let x := if writable then { x with writeopen := false } else { x with readopen := false }
  if x.readopen = false ∧ x.writeopen = false then { x with freed := x.freed + 1 } else x

def State.pipeclose (s : State) (k : Nat) (writable : Bool) : State := s.setPipe k ((s.pipe k).close writable)

/-- `pipealloc` once it has its page. -/
def State.makePipe (s : State) (f0 f1 : Fin NFILE) : State :=
  let k := s.npipes
  let s := { s.setPipe k ⟨true, true, 0⟩ with npipes := k + 1 }
  let s := s.setFile f0 { s.file f0 with type := .pipe, readable := true, writable := false, pipe := k }
  s.setFile f1 { s.file f1 with type := .pipe, readable := false, writable := true, pipe := k }

/-- `argfd`. -/
def argfd (table : Table) (fd : Int) : Option (Fin NOFILE × Fin NFILE) :=
  if h : 0 ≤ fd ∧ fd < NOFILE then
    let fd : Fin NOFILE := ⟨fd.toNat, by omega⟩
    (table fd).map fun f => (fd, f)
  else none

/-- A call with what its arguments and the file system decide: the inode of `open`, if the
    path leads to one it may open, and whether the array of `pipe` is in the process. -/
inductive Call where
  | sysOpen (ip : Option Nat) (omode : Nat)
  | sysDup (fd : Int)
  | sysClose (fd : Int)
  | sysPipe (args : Bool)
  | fork
  | exit
  deriving DecidableEq

/-- A call up to its first access to what others share. -/
def enter (s : State) (p : Fin NPROC) : Call → State
  | .sysOpen ip omode =>
    match ip with
    | none => s.returns p (-1)
    | some ip => s.setPc p (.openAlloc ip omode)
  | .sysDup fd =>
    match argfd (s.ofile p) fd with
    | none => s.returns p (-1)
    | some (_, f) =>
      match freeFd (s.ofile p) with
      | none => s.returns p (-1)
      | some fd => (s.setFd p fd (some f)).setPc p (.dupRef f fd)
  | .sysClose fd =>
    match argfd (s.ofile p) fd with
    | none => s.returns p (-1)
    | some (fd, f) => (s.setFd p fd none).setPc p (.fileclose f (.ret 0))
  | .sysPipe args => if args then s.setPc p .pipeAlloc0 else s.returns p (-1)
  | .fork =>
    match s.freeProc with
    | none => s.returns p (-1)
    | some np =>
      { s.setProc np { s.proc np with life := .embryo, pid := s.nextpid } with nextpid := s.nextpid + 1 }.setPc p
        (.forkCopy np)
  | .exit => s.setPc p (.exiting 0)

/-- The next step of a call; `memory` tells whether a `kalloc` on the way succeeds. -/
def advance (s : State) (p : Fin NPROC) (memory : Bool) : Option State :=
  match s.pc p with
  | .user => none
  | .openAlloc ip omode =>
    match s.freeFile with
    | none => some (s.returns p (-1))
    | some f => some ((s.filealloc f).setPc p (.openFd f ip omode))
  | .openFd f ip omode =>
    match freeFd (s.ofile p) with
    | none => some (s.setPc p (.fileclose f (.ret (-1))))
    | some fd => some ((s.setFd p fd (some f)).setPc p (.openSet f fd ip omode))
  | .openSet f fd ip omode =>
    let x := { s.file f with
      type := .inode, ip := ip, off := 0, readable := omode &&& O_WRONLY == 0,
      writable := omode &&& O_WRONLY != 0 || omode &&& O_RDWR != 0 }
    some ((s.setFile f x).returns p fd.val)
  | .dupRef f fd => (s.filedup f).map fun s => s.returns p fd.val
  | .fileclose f k => s.fileclose p f k
  | .pipeclose pipe writable k => some ((s.pipeclose pipe writable).resume p k)
  | .exitClear fd => some ((s.setFd p fd none).setPc p (.exiting (fd.val + 1)))
  | .pipeAlloc0 =>
    match s.freeFile with
    | none => some (s.returns p (-1))
    | some f0 => some ((s.filealloc f0).setPc p (.pipeAlloc1 f0))
  | .pipeAlloc1 f0 =>
    match s.freeFile with
    | none => some (s.setPc p (.fileclose f0 (.ret (-1))))
    | some f1 => some ((s.filealloc f1).setPc p (.pipeKalloc f0 f1))
  | .pipeKalloc f0 f1 =>
    if memory then some ((s.makePipe f0 f1).setPc p (.pipeFd0 f0 f1))
    else some (s.setPc p (.fileclose f0 (.also f1 (-1))))
  | .pipeFd0 f0 f1 =>
    match freeFd (s.ofile p) with
    | none => some (s.setPc p (.fileclose f0 (.also f1 (-1))))
    | some fd0 => some ((s.setFd p fd0 (some f0)).setPc p (.pipeFd1 f0 f1 fd0))
  | .pipeFd1 f0 f1 fd0 =>
    match freeFd (s.ofile p) with
    | none => some ((s.setFd p fd0 none).setPc p (.fileclose f0 (.also f1 (-1))))
    | some fd1 => some ((s.setFd p fd1 (some f1)).returns p 0)
  | .forkCopy np =>
    if memory then some (s.setPc p (.forking np 0))
    else some ((s.setProc np { s.proc np with life := .unused }).returns p (-1))
  | .forking np i =>
    if h : i < NOFILE then
      match s.ofile p ⟨i, h⟩ with
      | none => some (s.setPc p (.forking np (i + 1)))
      | some f => (s.filedup f).map fun s => (s.setFd np ⟨i, h⟩ (some f)).setPc p (.forking np (i + 1))
    else some ((s.setProc np { s.proc np with life := .live }).returns p (s.proc np).pid)
  | .exiting i =>
    if h : i < NOFILE then
      match s.ofile p ⟨i, h⟩ with
      | none => some (s.setPc p (.exiting (i + 1)))
      | some f => some (s.setPc p (.fileclose f (.clear ⟨i, h⟩)))
    else some ({ s.setProc p { s.proc p with life := .zombie } with
      result := Function.update s.result p none }.setPc p .user)

inductive Event where
  | call (p : Fin NPROC) (c : Call)
  | step (p : Fin NPROC) (memory : Bool)
  | wait (p : Fin NPROC)
  deriving DecidableEq

/-- `init`, slot 0, does not exit. `wait` frees the slot of a zombie. -/
def next (s : State) : Event → Option State
  | .call p c =>
    if (s.proc p).life = .live ∧ s.pc p = .user ∧ ¬ (p.val = 0 ∧ c = .exit) then
      some (enter (s.begins p) p c)
    else none
  | .step p memory => if (s.proc p).life = .live then advance s p memory else none
  | .wait p =>
    if (s.proc p).life = .zombie then some (s.setProc p { s.proc p with life := .unused, pid := 0 }) else none

/-- After boot: `init` without descriptors, no file, no pipe. -/
def Start (s : State) : Prop :=
  (∀ f, (s.file f).ref = 0 ∧ (s.file f).type = .none) ∧ s.npipes = 0 ∧ (∀ k, s.pipe k = ⟨false, false, 0⟩) ∧
  (∀ p, (s.proc p).ofile = fun _ => none) ∧ (∀ p, s.pc p = .user) ∧
  (∀ p, (s.proc p).life = if p.val = 0 then .live else .unused) ∧ ∀ p, s.result p = none

def fileSystem : System State Event where
  start := Start
  next := next

section Fields
variable (s : State) (p : Fin NPROC)

@[simp] theorem setFile_file (f : Fin NFILE) (x : File) : (s.setFile f x).file = Function.update s.file f x := rfl
@[simp] theorem setFile_pipe (f : Fin NFILE) (x : File) : (s.setFile f x).pipe = s.pipe := rfl
@[simp] theorem setFile_npipes (f : Fin NFILE) (x : File) : (s.setFile f x).npipes = s.npipes := rfl
@[simp] theorem setFile_proc (f : Fin NFILE) (x : File) : (s.setFile f x).proc = s.proc := rfl
@[simp] theorem setFile_pc (f : Fin NFILE) (x : File) : (s.setFile f x).pc = s.pc := rfl
@[simp] theorem setFile_saved (f : Fin NFILE) (x : File) : (s.setFile f x).saved = s.saved := rfl
@[simp] theorem setFile_result (f : Fin NFILE) (x : File) : (s.setFile f x).result = s.result := rfl
@[simp] theorem setPc_file (pc : Pc) : (s.setPc p pc).file = s.file := rfl
@[simp] theorem setPc_pipe (pc : Pc) : (s.setPc p pc).pipe = s.pipe := rfl
@[simp] theorem setPc_npipes (pc : Pc) : (s.setPc p pc).npipes = s.npipes := rfl
@[simp] theorem setPc_proc (pc : Pc) : (s.setPc p pc).proc = s.proc := rfl
@[simp] theorem setPc_pc (pc : Pc) : (s.setPc p pc).pc = Function.update s.pc p pc := rfl
@[simp] theorem setPc_saved (pc : Pc) : (s.setPc p pc).saved = s.saved := rfl
@[simp] theorem setPc_result (pc : Pc) : (s.setPc p pc).result = s.result := rfl
@[simp] theorem setProc_file (x : Proc) : (s.setProc p x).file = s.file := rfl
@[simp] theorem setProc_pipe (x : Proc) : (s.setProc p x).pipe = s.pipe := rfl
@[simp] theorem setProc_npipes (x : Proc) : (s.setProc p x).npipes = s.npipes := rfl
@[simp] theorem setProc_proc (x : Proc) : (s.setProc p x).proc = Function.update s.proc p x := rfl
@[simp] theorem setProc_pc (x : Proc) : (s.setProc p x).pc = s.pc := rfl
@[simp] theorem setProc_saved (x : Proc) : (s.setProc p x).saved = s.saved := rfl
@[simp] theorem setProc_result (x : Proc) : (s.setProc p x).result = s.result := rfl
@[simp] theorem setPipe_file (k : Nat) (x : Pipe) : (s.setPipe k x).file = s.file := rfl
@[simp] theorem setPipe_pipe (k : Nat) (x : Pipe) : (s.setPipe k x).pipe = Function.update s.pipe k x := rfl
@[simp] theorem setPipe_npipes (k : Nat) (x : Pipe) : (s.setPipe k x).npipes = s.npipes := rfl
@[simp] theorem setPipe_proc (k : Nat) (x : Pipe) : (s.setPipe k x).proc = s.proc := rfl
@[simp] theorem setPipe_pc (k : Nat) (x : Pipe) : (s.setPipe k x).pc = s.pc := rfl
@[simp] theorem setPipe_saved (k : Nat) (x : Pipe) : (s.setPipe k x).saved = s.saved := rfl
@[simp] theorem setPipe_result (k : Nat) (x : Pipe) : (s.setPipe k x).result = s.result := rfl
@[simp] theorem returns_file (r : Int) : (s.returns p r).file = s.file := rfl
@[simp] theorem returns_pipe (r : Int) : (s.returns p r).pipe = s.pipe := rfl
@[simp] theorem returns_npipes (r : Int) : (s.returns p r).npipes = s.npipes := rfl
@[simp] theorem returns_proc (r : Int) : (s.returns p r).proc = s.proc := rfl
@[simp] theorem returns_pc (r : Int) : (s.returns p r).pc = Function.update s.pc p .user := rfl
@[simp] theorem returns_saved (r : Int) : (s.returns p r).saved = s.saved := rfl
@[simp] theorem returns_result (r : Int) : (s.returns p r).result = Function.update s.result p (some r) := rfl

end Fields

end Xv6File
