import KernelLabs.Lib.Transition
import KernelLabs.Lib.GroupCommit
import KernelLabs.Xv6.Log

/-!
The redo log on its disk (assignment-3 `log.c` over the buffer cache of `bio.c`). A step
of `advance` makes the next `bwrite` of `commit` or `recover_from_log`; a crash may come
between any two steps and leaves only the disk. The superblock is never written, so
`start` and `size` are the same at every boot. A process changes a buffer it has locked
and then calls `log_write` for it; the blocks it changes lie outside the log area.
-/
namespace Xv6LogDisk
open Xv6Log Transition GroupCommit

/-- The words of a block. -/
@[ext]
structure Block where
  word : Nat → Nat

structure Buf where
  data : Block
  dirty : Bool

/-- Where a process is: outside of any operation, in one, with a buffer it has changed,
    or in `log_write` of that buffer, past the tests and before the lock. -/
inductive Op where
  | outside
  | inside
  | modified (b : Nat)
  | entering (b : Nat)
  deriving DecidableEq

/-- `recovering` and `installing` are `install_trans` called from `recover_from_log`
    and from `commit`. -/
inductive Phase where
  | readHead
  | recovering (tail : Nat)
  | running
  | writing (tail : Nat)
  | installing (tail : Nat)
  | committed
  deriving DecidableEq

structure State (P : Type) where
  disk : Nat → Block
  cache : Nat → Option Buf
  holder : Nat → Option P
  log : Log
  op : P → Op
  phase : Phase

inductive Action (P : Type) where
  | bread (p : P) (b : Nat)
  | brelse (p : P) (b : Nat)
  | evict (b : Nat)
  | modify (p : P) (b : Nat) (data : Block)
  | logWrite (p : P)
  | record (p : P)
  | beginOp (p : P)
  | endOp (p : P)
  | advance
  | crash

def Phase.booted : Phase → Bool
  | .readHead => false
  | .recovering _ => false
  | _ => true

def Outside (log : Log) (b : Nat) : Prop := b < log.start ∨ log.start + log.size ≤ b

instance (log : Log) (b : Nat) : Decidable (Outside log b) :=
  inferInstanceAs (Decidable (_ ∨ _))

/-- The header block that `write_head` makes of the buffer `old`. -/
def header (old : Block) (lh : List Nat) : Block where
  word
    | 0 => lh.length
    | i + 1 => (lh[i]?).getD (old.word (i + 1))

/-- The loop of `read_head`. -/
def entries (b : Block) : List Nat := (List.range (b.word 0)).map fun i => b.word (i + 1)

section Model
variable {P : Type}

/-- The buffer that `bread` returns. -/
def State.buffer (s : State P) (b : Nat) : Buf := (s.cache b).getD ⟨s.disk b, false⟩

def State.fill (s : State P) (b : Nat) : State P :=
  { s with cache := Function.update s.cache b (some (s.buffer b)) }

def State.setBuf (s : State P) (b : Nat) (buf : Buf) : State P :=
  { s with cache := Function.update s.cache b (some buf) }

/-- `iderw` clears `B_DIRTY` after the write. -/
def State.bwrite (s : State P) (b : Nat) (data : Block) : State P :=
  { s.setBuf b ⟨data, false⟩ with disk := Function.update s.disk b data }

def State.setPhase (s : State P) (phase : Phase) : State P := { s with phase := phase }

def State.setLog (s : State P) (log : Log) : State P := { s with log := log }

def writeHead (s : State P) : State P :=
  s.bwrite s.log.start (header (s.buffer s.log.start).data s.log.lh)

/-- One turn of `write_log`. -/
def writeLog (s : State P) (tail b : Nat) : State P :=
  (s.fill b).bwrite (s.log.start + tail + 1) (s.buffer b).data

/-- One turn of `install_trans`. -/
def installTrans (s : State P) (tail b : Nat) : State P :=
  (s.fill (s.log.start + tail + 1)).bwrite b (s.buffer (s.log.start + tail + 1)).data

/-- `log.lh.n = 0; write_head();` -/
def clearHead (s : State P) : State P := writeHead (s.setLog { s.log with lh := [] })

/-- Both buffers of a turn can be locked. -/
def State.free [DecidableEq P] (s : State P) (tail b : Nat) : Bool :=
  s.holder (s.log.start + tail + 1) = none && s.holder b = none

section Steps
variable [DecidableEq P]

def State.setOp (s : State P) (p : P) (op : Op) : State P :=
  { s with op := Function.update s.op p op }

def State.setHolder (s : State P) (b : Nat) (holder : Option P) : State P :=
  { s with holder := Function.update s.holder b holder }

def advance (s : State P) : Option (State P) :=
  match s.phase with
  | .readHead =>
    if s.holder s.log.start = none then
      let lh := entries (s.buffer s.log.start).data
      some (((s.fill s.log.start).setLog { s.log with lh := lh }).setPhase (.recovering 0))
    else none
  | .recovering tail =>
    match s.log.lh[tail]? with
    | some b =>
      if s.free tail b then some ((installTrans s tail b).setPhase (.recovering (tail + 1))) else none
    | none => if s.holder s.log.start = none then some ((clearHead s).setPhase .running) else none
  | .running => none
  | .writing tail =>
    match s.log.lh[tail]? with
    | some b =>
      if s.free tail b then some ((writeLog s tail b).setPhase (.writing (tail + 1))) else none
    | none => if s.holder s.log.start = none then some ((writeHead s).setPhase (.installing 0)) else none
  | .installing tail =>
    match s.log.lh[tail]? with
    | some b =>
      if s.free tail b then some ((installTrans s tail b).setPhase (.installing (tail + 1))) else none
    | none => if s.holder s.log.start = none then some ((clearHead s).setPhase .committed) else none
  | .committed => some ((s.setLog { s.log with committing := false }).setPhase .running)

/-- A panic stops the machine. Writing past the end of `lh.block` has no successor. -/
def next (s : State P) : Action P → Option (State P)
  | .bread p b => if s.holder b = none then some ((s.fill b).setHolder b (some p)) else none
  | .brelse p b =>
    if s.holder b = some p ∧ (s.op p = .inside ∨ s.op p = .outside) then some (s.setHolder b none)
    else none
  | .evict b =>
    if s.holder b = none ∧ (s.buffer b).dirty = false then
      some { s with cache := Function.update s.cache b none }
    else none
  | .modify p b data =>
    if s.op p = .inside ∧ s.holder b = some p ∧ Outside s.log b then
      some ((s.setBuf b { s.buffer b with data := data }).setOp p (.modified b))
    else none
  | .logWrite p =>
    match s.op p with
    | .modified b =>
      match logWriteTest s.log with
      | .ok _ => some (s.setOp p (.entering b))
      | .error _ => none
    | _ => none
  | .record p =>
    match s.op p with
    | .entering b =>
      if b ∈ s.log.lh ∨ s.log.lh.length < LOGSIZE then
        let s := s.setBuf b { s.buffer b with dirty := true }
        some ((s.setLog (Xv6Log.record s.log b)).setOp p .inside)
      else none
    | _ => none
  | .beginOp p =>
    if s.op p = .outside ∧ s.phase.booted = true then
      (Xv6Log.beginOp s.log).map fun log => (s.setLog log).setOp p .inside
    else none
  | .endOp p =>
    if s.op p = .inside then
      match Xv6Log.endOp s.log with
      | .ok (log, true) =>
        -- `commit` does nothing for an empty log
        let phase := if log.lh = [] then .committed else .writing 0
        some (((s.setLog log).setOp p .outside).setPhase phase)
      | .ok (log, false) => some ((s.setLog log).setOp p .outside)
      | .error _ => none
    else none
  | .advance => advance s
  | .crash =>
    some ⟨s.disk, fun _ => none, fun _ => none, ⟨s.log.start, s.log.size, 0, false, []⟩,
      fun _ => .outside, .readHead⟩

/-- What a step does to the store that the log implements. -/
def emit (s : State P) : Action P → List (Event Nat Block P)
  | .record p =>
    match s.op p with
    | .entering b => [.update p b (s.buffer b).data]
    | _ => []
  | .beginOp p => [.start p]
  | .endOp p => [.finish p]
  | .advance =>
    match s.phase with
    | .writing tail => if s.log.lh[tail]? = none then [.commit] else []
    | _ => []
  | .crash => [.crash]
  | _ => []

end Steps

/-- Power on, with a disk whose log is empty. -/
def Start (s : State P) : Prop :=
  (s.disk s.log.start).word 0 = 0 ∧ 0 < s.log.size ∧ s.log.outstanding = 0 ∧
    s.log.committing = false ∧ s.log.lh = [] ∧ s.phase = .readHead ∧ (∀ b, s.cache b = none) ∧
    (∀ b, s.holder b = none) ∧ ∀ p, s.op p = .outside

def system (P : Type) [DecidableEq P] : System (State P) (Action P) := ⟨Start, next⟩

end Model
end Xv6LogDisk
