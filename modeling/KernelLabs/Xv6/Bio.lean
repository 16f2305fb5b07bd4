import Mathlib.Logic.Function.Basic
import KernelLabs.Lib.Transition
import KernelLabs.Xv6.Log

/-!
The buffer cache of xv6 (assignment-3 `bio.c`, with `log_write` of `log.c` and `iderw` and
`ideintr` of `ide.c`) as used on device 1 by any number of processes at once. A step is a
section that runs under a lock, or what the holder of a buffer does to it. A *use* is one
`bread` with the `brelse` that ends it; a process with several buffers has several uses.
The disk does what it is asked, in any order.
-/
namespace Xv6Bio

def NBUF : Nat := Xv6Log.MAXOPBLOCKS * 3
def ROOTDEV : Nat := 1

/-- `struct buf` without its links and its lock; `valid` and `dirty` are the two flags. -/
structure Buf (α : Type) where
  valid : Bool
  dirty : Bool
  dev : Nat
  blockno : Nat
  refcnt : Nat
  data : α

/-- A `struct buf *` in the list of the cache, `none` for `&bcache.head`. -/
abbrev Node := Option (Fin NBUF)

structure Links where
  next : Node → Node
  prev : Node → Node

/-- Where a use of a buffer is. -/
inductive Use where
  | idle
  /-- In `acquiresleep` of `bget`. -/
  | locking (b : Fin NBUF) (blockno : Nat)
  /-- Before the test of `B_VALID` in `bread`. -/
  | locked (b : Fin NBUF) (blockno : Nat)
  /-- In `iderw`. -/
  | disk (b : Fin NBUF) (blockno : Nat)
  /-- After `bread`. -/
  | holding (b : Fin NBUF) (blockno : Nat)
  /-- In `brelse`, after `releasesleep`. -/
  | releasing (b : Fin NBUF) (blockno : Nat)
  deriving DecidableEq

/-- `changed` tells which buffers have data newer than the last `log_write` or `bwrite`, and
    `truth` what was last stored into each block. The code keeps neither. -/
structure Cache (π α : Type) where
  buf : Fin NBUF → Buf α
  links : Links
  lock : Fin NBUF → Option π
  use : π → Use
  disk : Nat → Nat → α
  log : Xv6Log.Log
  changed : Fin NBUF → Bool
  truth : Nat → α

/-- `b->next = bcache.head.next; b->prev = &bcache.head; bcache.head.next->prev = b;
    bcache.head.next = b;` -/
def Links.pushHead (l : Links) (b : Fin NBUF) : Links :=
  let l := { l with next := Function.update l.next (some b) (l.next none) }
  let l := { l with prev := Function.update l.prev (some b) none }
  let l := { l with prev := Function.update l.prev (l.next none) (some b) }
  { l with next := Function.update l.next none (some b) }

/-- `b->next->prev = b->prev; b->prev->next = b->next;` -/
def Links.unlink (l : Links) (b : Fin NBUF) : Links :=
  let l := { l with prev := Function.update l.prev (l.next (some b)) (l.prev (some b)) }
  { l with next := Function.update l.next (l.prev (some b)) (l.next (some b)) }

def binit : Links :=
  (List.finRange NBUF).foldl Links.pushHead ⟨fun _ => none, fun _ => none⟩

/-- `for(b = start; b != &bcache.head; b = step(b)) if(p(b)) ...`, with fuel for the
    buffers of the list. -/
def scan (step : Node → Node) (p : Fin NBUF → Bool) : Nat → Node → Option (Fin NBUF)
  | _, none => none
  | 0, some _ => none
  | fuel + 1, some b => if p b then some b else scan step p fuel (step (some b))

variable {π α : Type} [DecidableEq π]

def Cache.setBuf (s : Cache π α) (b : Fin NBUF) (x : Buf α) : Cache π α :=
  { s with buf := Function.update s.buf b x }

def Cache.go (s : Cache π α) (p : π) (u : Use) : Cache π α := { s with use := Function.update s.use p u }

/-- The part of `bget` under `bcache.lock`; `none` for `panic("bget: no buffers")`. -/
def bget (s : Cache π α) (dev blockno : Nat) : Option (Fin NBUF × Cache π α) :=
  match scan s.links.next (fun b => (s.buf b).dev == dev && (s.buf b).blockno == blockno) NBUF (s.links.next none) with
  | some b => some (b, s.setBuf b { s.buf b with refcnt := (s.buf b).refcnt + 1 })
  | none =>
    match scan s.links.prev (fun b => (s.buf b).refcnt == 0 && !(s.buf b).dirty) NBUF (s.links.prev none) with
    | some b => some (b, s.setBuf b { s.buf b with dev := dev, blockno := blockno, valid := false, dirty := false, refcnt := 1 })
    | none => none

/-- `iderw` up to its `sleep`; `none` for a panic. -/
def iderw (s : Cache π α) (p : π) (b : Fin NBUF) (blockno : Nat) : Option (Cache π α) :=
  if s.lock b ≠ some p then none
  else if (s.buf b).valid && !(s.buf b).dirty then none
  else some (s.go p (.disk b blockno))

/-- The interrupt for the request on `b`. -/
def ideintr (s : Cache π α) (b : Fin NBUF) : Cache π α :=
  let x := s.buf b
  if x.dirty then
    { s.setBuf b { x with valid := true, dirty := false } with
      disk := Function.update s.disk x.dev (Function.update (s.disk x.dev) x.blockno x.data) }
  else s.setBuf b { x with data := s.disk x.dev x.blockno, valid := true, dirty := false }

/-- `bwrite` up to the `sleep` of `iderw`. -/
def bwrite (s : Cache π α) (p : π) (b : Fin NBUF) (blockno : Nat) : Option (Cache π α) :=
  if s.lock b ≠ some p then none
  else iderw { s.setBuf b { s.buf b with dirty := true } with changed := Function.update s.changed b false } p b blockno

/-- The part of `log_write` under `log.lock`; its tests come before and change nothing. -/
def logWrite (s : Cache π α) (b : Fin NBUF) : Cache π α :=
  { s.setBuf b { s.buf b with dirty := true } with
    log := Xv6Log.record s.log (s.buf b).blockno
    changed := Function.update s.changed b false }

/-- The part of `brelse` under `bcache.lock`. -/
def brelse (s : Cache π α) (b : Fin NBUF) : Cache π α :=
  let refcnt := (s.buf b).refcnt - 1
  let s := s.setBuf b { s.buf b with refcnt := refcnt }
  if refcnt = 0 then { s with links := (s.links.unlink b).pushHead b } else s

inductive Act (π α : Type) where
  | bget (p : π) (blockno : Nat)
  | acquiresleep (p : π)
  | test (p : π)
  | ideintr (p : π)
  | store (p : π) (data : α)
  | bwrite (p : π)
  | logWrite (p : π)
  | releasesleep (p : π)
  | brelse (p : π)
  /-- The rest of `log.c` changes the log. -/
  | log (log : Xv6Log.Log)

/-- One step; `none` where it cannot be taken or panics. A buffer with new data is not
    released before `log_write` or `bwrite`. -/
def next (s : Cache π α) : Act π α → Option (Cache π α)
  | .bget p blockno =>
    match s.use p with
    | .idle => (bget s ROOTDEV blockno).map fun (b, s) => s.go p (.locking b blockno)
    | _ => none
  | .acquiresleep p =>
    match s.use p with
    | .locking b blockno =>
      if s.lock b = none then some ({ s with lock := Function.update s.lock b (some p) }.go p (.locked b blockno)) else none
    | _ => none
  | .test p =>
    match s.use p with
    | .locked b blockno => if (s.buf b).valid then some (s.go p (.holding b blockno)) else iderw s p b blockno
    | _ => none
  | .ideintr p =>
    match s.use p with
    | .disk b blockno => some ((ideintr s b).go p (.holding b blockno))
    | _ => none
  | .store p data =>
    match s.use p with
    | .holding b blockno =>
      some { s.setBuf b { s.buf b with data := data } with
        changed := Function.update s.changed b true
        truth := Function.update s.truth blockno data }
    | _ => none
  | .bwrite p =>
    match s.use p with
    | .holding b blockno => bwrite s p b blockno
    | _ => none
  | .logWrite p =>
    match s.use p with
    | .holding b _ => some (logWrite s b)
    | _ => none
  | .releasesleep p =>
    match s.use p with
    | .holding b blockno =>
      if s.lock b = some p ∧ s.changed b = false then
        some ({ s with lock := Function.update s.lock b none }.go p (.releasing b blockno))
      else none
    | _ => none
  | .brelse p =>
    match s.use p with
    | .releasing b _ => some ((brelse s b).go p .idle)
    | _ => none
  | .log log => some { s with log := log }

/-- After `binit`; the buffers are zero, and the disk and the data may be anything. -/
def started (s : Cache π α) : Prop :=
  (∃ data : Fin NBUF → α, s.buf = fun b => ⟨false, false, 0, 0, 0, data b⟩) ∧ s.links = binit ∧ s.lock = (fun _ => none) ∧
  s.use = (fun _ => .idle) ∧ s.changed = (fun _ => false) ∧ s.truth = s.disk ROOTDEV

def system (π α : Type) [DecidableEq π] : Transition.System (Cache π α) (Act π α) where
  start := started
  next := next

end Xv6Bio
