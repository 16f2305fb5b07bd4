import Mathlib.Data.Fintype.Card
import Mathlib.Logic.Function.Basic
import KernelLabs.Lib.Transition

/-!
The IDE driver of xv6 (assignment-3 `ide.c`) with the disk it drives. `idelock` is held from
one `sleep` of `iderw` to the next and during `ideintr`; such a piece is one step here. The
processes take and leave the sleep locks of the buffers, and change only buffers that are not
in `iderw`. A panic leaves no step.
-/
namespace Xv6Ide
open Transition

def FSSIZE : Nat := 1000
def BSIZE : Nat := 512
def SECTOR_SIZE : Nat := 512

structure Buf (P B D : Type) where
  valid : Bool
  dirty : Bool
  dev : BitVec 32
  blockno : BitVec 32
  lock : Option P
  qnext : Option B
  data : D

/-- Ports 0x1f2 to 0x1f6. -/
structure Registers where
  count : BitVec 8
  low : BitVec 8
  mid : BitVec 8
  high : BitVec 8
  drive : BitVec 8
  deriving DecidableEq

def registers (dev blockno : BitVec 32) : Registers :=
  let sector_per_block := BitVec.ofNat 32 (BSIZE / SECTOR_SIZE)
  let sector := blockno * sector_per_block
  { count := sector_per_block.setWidth 8
    low := (sector &&& 0xff).setWidth 8
    mid := ((sector.sshiftRight 8) &&& 0xff).setWidth 8
    high := ((sector.sshiftRight 16) &&& 0xff).setWidth 8
    drive := ((0xe0 : BitVec 32) ||| ((dev &&& 1) <<< 4) ||| ((sector.sshiftRight 24) &&& 0x0f)).setWidth 8 }

/-- The sector that the disk finds in its registers: the disk and the address. -/
def Registers.sector (r : Registers) : Bool × BitVec 28 :=
  (r.drive.getLsbD 4, r.drive.extractLsb' 0 4 ++ r.high ++ r.mid ++ r.low)

/-- A command of one sector: what it writes, or a read. -/
structure Command (D : Type) where
  regs : Registers
  put : Option D

/-- `ready` has its interrupt raised. It has the sector buffer, or nothing if `IDE_DF` or
    `IDE_ERR` is set. -/
inductive Device (D : Type) where
  | idle
  | working (c : Command D)
  | ready (result : Option D)

/-- `calls` has the buffer of a process in `iderw`, and whether the process sleeps. -/
structure State (P B D : Type) where
  buf : B → Buf P B D
  idequeue : Option B
  havedisk1 : Bool
  device : Device D
  disk : Bool × BitVec 28 → D
  calls : P → Option (B × Bool)

inductive Action (P B D : Type) where
  | acquiresleep (p : P) (b : B)
  | releasesleep (p : P) (b : B)
  /-- The holder, or `bget` if there is none, gives the buffer another block, flags or data. -/
  | change (holder : Option P) (b : B) (valid dirty : Bool) (dev blockno : BitVec 32) (data : D)
  | iderw (p : P) (b : B)
  | resume (p : P)
  /-- `kill` wakes a process too. -/
  | wake (p : P)
  /-- The disk ends its command and raises an interrupt. -/
  | finish (failed : Bool)
  | ideintr

inductive Event (B D : Type) where
  | arrived (b : B) (dev blockno : BitVec 32) (put : Option D)
  | started (b : B)
  | completed (b : B)
  | returned (b : B) (valid dirty : Bool) (data : D)

section Model
variable {P B D : Type} [DecidableEq P] [DecidableEq B] [Fintype B]

def Buf.put (b : Buf P B D) : Option D := if b.dirty then some b.data else none

def Buf.finished (b : Buf P B D) : Bool := b.valid && !b.dirty

def State.qnext (s : State P B D) (b : B) : Option B := (s.buf b).qnext

def State.modify (s : State P B D) (b : B) (f : Buf P B D → Buf P B D) : State P B D :=
  { s with buf := Function.update s.buf b (f (s.buf b)) }

def idestart (s : State P B D) (b : B) : Option (State P B D × List (Event B D)) :=
  let buf := s.buf b
  if FSSIZE ≤ buf.blockno.toNat then none
  else some ({ s with device := .working ⟨registers buf.dev buf.blockno, buf.put⟩ }, [.started b])

def wakeup (s : State P B D) (b : B) : State P B D :=
  { s with calls := fun p => (s.calls p).map fun (c, asleep) => (c, asleep && c ≠ b) }

/-- The buffer at which the walk for the end of the queue stops. -/
def lastOf (qnext : B → Option B) : Nat → B → B
  | 0, b => b
  | fuel + 1, b =>
    match qnext b with
    | some c => lastOf qnext fuel c
    | none => b

/-- `*pp = b` at the end of the queue. -/
def append (s : State P B D) (b : B) : State P B D :=
  match s.idequeue with
  | none => { s with idequeue := some b }
  | some head => s.modify (lastOf s.qnext (Fintype.card B) head) fun last => { last with qnext := some b }

/-- The loop of `iderw`: sleep, or return. -/
def waitLoop (s : State P B D) (p : P) (b : B) : State P B D × List (Event B D) :=
  let buf := s.buf b
  if buf.finished then
    ({ s with calls := Function.update s.calls p none }, [.returned b buf.valid buf.dirty buf.data])
  else ({ s with calls := Function.update s.calls p (some (b, true)) }, [])

def iderw (s : State P B D) (p : P) (b : B) : Option (State P B D × List (Event B D)) :=
  let buf := s.buf b
  if buf.lock ≠ some p ∨ buf.finished ∨ (buf.dev ≠ 0 ∧ !s.havedisk1) then none
  else
    let arrived := .arrived b buf.dev buf.blockno buf.put
    let s := append (s.modify b fun buf => { buf with qnext := none }) b
    if s.idequeue = some b then do
      let (s, started) ← idestart s b
      let (s, returned) := waitLoop s p b
      some (s, arrived :: started ++ returned)
    else
      let (s, returned) := waitLoop s p b
      some (s, arrived :: returned)

/-- `b` leaves the queue: what the disk has read goes into it, and its process is woken. -/
def complete (s : State P B D) (b : B) (result : Option D) : State P B D :=
  let s := { s with idequeue := (s.buf b).qnext }
  let s :=
    match result with
    | some d => if (s.buf b).dirty then s else s.modify b fun buf => { buf with data := d }
    | none => s
  let s := s.modify b fun buf => { buf with valid := true, dirty := false }
  wakeup s b

/-- The handler for an interrupt that was raised. -/
def ideintr (s : State P B D) (result : Option D) : Option (State P B D × List (Event B D)) :=
  let s := { s with device := .idle }
  match s.idequeue with
  | none => some (s, [])
  | some b =>
    let s := complete s b result
    match s.idequeue with
    | some c => do
      let (s, started) ← idestart s c
      some (s, .completed b :: started)
    | none => some (s, [.completed b])

/-- What the disk does with a command. -/
def finish (s : State P B D) (c : Command D) (failed : Bool) : State P B D :=
  if failed then { s with device := .ready none }
  else
    match c.put with
    | some d => { s with disk := Function.update s.disk c.regs.sector d, device := .ready (some d) }
    | none => { s with device := .ready (some (s.disk c.regs.sector)) }

def act (s : State P B D) : Action P B D → Option (State P B D × List (Event B D))
  | .acquiresleep p b =>
    if s.calls p = none ∧ (s.buf b).lock = none then some (s.modify b fun buf => { buf with lock := some p }, []) else none
  | .releasesleep p b =>
    if s.calls p = none ∧ (s.buf b).lock = some p then some (s.modify b fun buf => { buf with lock := none }, []) else none
  | .change holder b valid dirty dev blockno data =>
    if (s.buf b).lock = holder ∧ holder.bind s.calls = none then
      some (s.modify b fun buf => { buf with valid := valid, dirty := dirty, dev := dev, blockno := blockno, data := data }, [])
    else none
  | .iderw p b => if s.calls p = none then iderw s p b else none
  | .resume p =>
    match s.calls p with
    | some (b, false) => some (waitLoop s p b)
    | _ => none
  | .wake p => some ({ s with calls := Function.update s.calls p ((s.calls p).map fun (b, _) => (b, false)) }, [])
  | .finish failed =>
    match s.device with
    | .working c => some (finish s c failed, [])
    | _ => none
  | .ideintr =>
    match s.device with
    | .ready result => ideintr s result
    | _ => none

def step (s : State P B D) (a : Action P B D) : Option (State P B D) := (act s a).map Prod.fst

def emit (s : State P B D) (a : Action P B D) : List (Event B D) := ((act s a).map Prod.snd).getD []

/-- No request yet. -/
def Start (s : State P B D) : Prop :=
  s.idequeue = none ∧ s.device = .idle ∧ ∀ p, s.calls p = none

def system (P B D : Type) [DecidableEq P] [DecidableEq B] [Fintype B] : System (State P B D) (Action P B D) where
  start := Start
  next := step

end Model
end Xv6Ide
